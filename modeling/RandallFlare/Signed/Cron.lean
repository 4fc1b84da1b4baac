import RandallFlare.Lib.Text

/-!
# Cron expressions

A translation of the parser of `rf-core/src/cron.rs`: five fields of lists, ranges and steps, each
read into a bit mask.  Additions of 32-bit numbers wrap around, as in the release build.
-/

namespace RandallFlare

open Text

/-- Why an expression is refused, with the text it is about. -/
inductive CronParseError
  | badStep (part : List Char)
  | zeroStep (part : List Char)
  | badRange (part : List Char)
  | badValue (range : List Char)
  | outOfRange (part : List Char) (min max : ℕ)
  | emptyField (field : List Char)
  | fieldCount (n : ℕ) (text : String)
  deriving DecidableEq

/-- The minutes, hours, days of the month, months and days of the week, as bit masks. -/
structure CronExpr where
  minute : BitVec 64
  hour : BitVec 32
  dom : BitVec 32
  month : BitVec 16
  /-- Sunday is bit 0. -/
  dow : BitVec 8
  domStar : Bool
  dowStar : Bool
  deriving DecidableEq

/-- The loop that sets every `step`-th bit from `v` up to `hi`, for at most `n` rounds.  With `hi`
below 64 it ends within 64: `v` only grows, or only falls when the addition wraps around. -/
def fillMask (hi step : ℕ) : ℕ → ℕ → BitVec 64 → BitVec 64
  | 0, _, mask => mask
  | n + 1, v, mask =>
      if v ≤ hi then fillMask hi step n ((v + step) % 2 ^ 32) (mask ||| (1#64 <<< v)) else mask

/-- The values a part without its step runs over. -/
def parseRange (part range : List Char) (min max : ℕ) : Except CronParseError (ℕ × ℕ) :=
  if range = ['*'] then .ok (min, max)
  else match splitOnce '-' range with
    | some (a, b) => match parseUnsigned 32 a, parseUnsigned 32 b with
        | some lo, some hi => .ok (lo, hi)
        | _, _ => .error (.badRange part)
    | none => match parseUnsigned 32 range with
        | some v => .ok (v, v)
        | none => .error (.badValue range)

/-- The range of a part and its step. -/
def parseStep (part : List Char) : Except CronParseError (List Char × ℕ) :=
  match splitOnce '/' part with
  | some (r, s) => match parseUnsigned 32 s with
      | some step => if step = 0 then .error (.zeroStep part) else .ok (r, step)
      | none => .error (.badStep part)
  | none => .ok (part, 1)

/-- One part of a field, added to the mask. -/
def parsePart (min max : ℕ) (mask : BitVec 64) (part : List Char) :
    Except CronParseError (BitVec 64) := do
  let (range, step) ← parseStep part
  let (lo, hi) ← parseRange part range min max
  if lo < min ∨ hi > max ∨ lo > hi then throw (.outOfRange part min max)
  pure (fillMask hi step 64 lo mask)

/-- A field with values from `min` to `max`: its mask, and whether it is a star. -/
def parseField (field : List Char) (min max : ℕ) : Except CronParseError (BitVec 64 × Bool) := do
  let isStar := field = ['*'] ∨ (['*', '/'] <+: field ∧ ',' ∉ field)
  let mask ← (field.splitOn ',').foldlM (parsePart min max) 0
  if mask = 0 then throw (.emptyField field)
  pure (mask, decide isStar)

namespace CronExpr

/-- Five fields; a `7` among the days of the week stands for Sunday. -/
def parse (text : String) : Except CronParseError CronExpr :=
  match splitWhitespace text.toList with
  | [minuteField, hourField, domField, monthField, dowField] => do
      let (minute, _) ← parseField minuteField 0 59
      let (hour, _) ← parseField hourField 0 23
      let (dom, domStar) ← parseField domField 1 31
      let (month, _) ← parseField monthField 1 12
      let (dow, dowStar) ← parseField (dowField.map fun c => if c = '7' then '0' else c) 0 6
      pure ⟨minute, hour.setWidth 32, dom.setWidth 32, month.setWidth 16, dow.setWidth 8,
        domStar, dowStar⟩
  | fields => .error (.fieldCount fields.length text)

end CronExpr

end RandallFlare
