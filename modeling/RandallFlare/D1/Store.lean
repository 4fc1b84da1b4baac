import RandallFlare.Lib.SortedMap
import RandallFlare.Quorum.Raft

/-!
# The durable Raft state of one database

The part of `rf/src/store.rs` that holds a database's Raft state: one meta record and the log
table.  The source keys the log table by the database name and the sequence number padded with
zeros to twenty digits, so that a range scan returns one database's entries in the order of their
numbers; here the table of the one database at hand is a list sorted by sequence number.  Every
function is one committed transaction.
-/

namespace RandallFlare

/-- The meta record and the log table of one database. -/
structure Store where
  /-- Epoch, vote, and position and epoch of the snapshot point. -/
  d1Meta : Option (ℕ × Option PublicId × ℕ × ℕ)
  d1Log : List (ℕ × Entry)
  deriving DecidableEq

namespace Store

/-- No record and no entry. -/
def empty : Store := ⟨none, []⟩

def putD1Meta (s : Store) (epoch : ℕ) (votedFor : Option PublicId) (baseSeq baseEpoch : ℕ) :
    Store :=
  { s with d1Meta := some (epoch, votedFor, baseSeq, baseEpoch) }

def loadD1Meta (s : Store) : ℕ × Option PublicId × ℕ × ℕ := s.d1Meta.getD (0, none, 0, 0)

/-- Drop the log entries at or below `uptoSeq`. -/
def compactD1Log (s : Store) (uptoSeq : ℕ) : Store :=
  { s with d1Log := s.d1Log.filter fun kv => ¬ kv.1 < uptoSeq + 1 }

/-- Truncate the log from `fromSeq` on, then append `tail`. -/
def putD1Log (s : Store) (fromSeq : ℕ) (tail : List Entry) : Store :=
  { s with
    d1Log := tail.foldl (fun t e => SortedMap.insertEntry e.seq e t)
      (s.d1Log.filter fun kv => ¬ fromSeq ≤ kv.1) }

def loadD1Log (s : Store) : List Entry := s.d1Log.map Prod.snd

end Store

end RandallFlare
