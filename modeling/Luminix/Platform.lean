import Luminix.Types

/-!
# What the program takes from its environment

Allocation, the clock, the calendar and the file system.  `Platform` carries what these calls
return; `Platform.Faithful` says that allocation succeeds, that files are written whole, and that
`strftime` turns a time into quoted text without quotes, backslashes or control characters in it.
-/

namespace Luminix

open CLib

/-- The environment of a save and a load. -/
structure Platform where
  /-- Whether `malloc` or `realloc` of that many bytes succeeds. -/
  malloc : Nat → Bool
  /-- `time(NULL)`. -/
  now : Int
  /-- Whether `localtime` converts a time.  What `time(NULL)` returns it always does. -/
  localtime : Int → Bool
  /-- `strftime` with the format `"%Y-%m-%d %H:%M:%S"`, quotes included, of a converted time. -/
  dateTimeText : Int → List UInt8
  /-- `mktime` of a year, month, day, hour, minute and second as `sscanf` reads them. -/
  mktime : Int → Int → Int → Int → Int → Int → Int
  /-- The bits of the `double` that `atof` returns. -/
  atof : CString → Nat
  /-- The bits of a `double` converted to `float`. -/
  floatOfDouble : Nat → Nat
  /-- The bytes that lie behind a local buffer. -/
  behindBuffer : Nat → UInt8
  /-- Whether `fopen` for writing succeeds. -/
  opensForWriting : Bool
  /-- How many of that many bytes `fwrite` writes. -/
  fwrite : Nat → Nat

/-- A write outside of a buffer. -/
inductive Overrun
  | overrun
  deriving DecidableEq

/-- The byte needs no escape in a JSON string. -/
def isPlainByte (c : UInt8) : Bool := 32 ≤ c && c != 34 && c != 92

/-- A text without quotes, backslashes and control characters. -/
def Plain (l : List UInt8) : Prop := ∀ c ∈ l, isPlainByte c = true

instance (l : List UInt8) : Decidable (Plain l) := List.decidableBAll _ l

/-- Allocation and file I/O succeed, and times come out as plain quoted text.  For a time that
`localtime` does not convert no text is asked. -/
structure Platform.Faithful (p : Platform) : Prop where
  malloc_eq : ∀ n, p.malloc n = true
  dateTimeText_eq : ∀ t, ∃ body, Plain body ∧ p.dateTimeText t = 34 :: body ++ [34]
  opensForWriting_eq : p.opensForWriting = true
  fwrite_eq : ∀ n, p.fwrite n = n

/-- An environment in which all of this succeeds, at the beginning of 1970.  The years of the times
that are converted fit into an `int`. -/
def Platform.epoch : Platform where
  malloc _ := true
  now := 0
  localtime t := decide (-67768040609740800 ≤ t ∧ t ≤ 67768036191676799)
  dateTimeText _ := ascii "\"1970-01-01 00:00:00\""
  mktime _ _ _ _ _ _ := 0
  atof _ := 0
  floatOfDouble _ := 0
  behindBuffer _ := 0
  opensForWriting := true
  fwrite n := n

theorem Platform.epoch_faithful : Platform.epoch.Faithful where
  malloc_eq _ := rfl
  dateTimeText_eq _ := ⟨ascii "1970-01-01 00:00:00", by decide, rfl⟩
  opensForWriting_eq := rfl
  fwrite_eq _ := rfl

/-- The bytes that a caller finds from the start of a buffer of `size` bytes on, after `snprintf`
has put as much of `text` into it as fits. -/
def Platform.snprintf (p : Platform) (size : Nat) (text : List UInt8) : List UInt8 :=
  text.take (size - 1) ++ 0 :: (List.range text.length).map p.behindBuffer

/-- A text that fits is there whole. -/
theorem Platform.take_snprintf (p : Platform) {size : Nat} {text : List UInt8}
    (h : text.length < size) : (p.snprintf size text).take text.length = text := by
  have htake : text.take (size - 1) = text := List.take_of_length_le (by omega)
  rw [snprintf, htake, List.take_left]

/-- A text that does not fit is cut, and followed by its terminator. -/
theorem Platform.take_snprintf_of_le (p : Platform) {size : Nat} {text : List UInt8}
    (hpos : 0 < size) (h : size ≤ text.length) :
    ∃ r, (p.snprintf size text).take text.length = text.take (size - 1) ++ 0 :: r := by
  have hlen : (text.take (size - 1)).length = size - 1 := by
    rw [List.length_take]
    omega
  obtain ⟨n, hn⟩ : ∃ n, text.length = (size - 1) + (n + 1) := ⟨text.length - size, by omega⟩
  rw [snprintf, hn, List.take_append, hlen, Nat.add_sub_cancel_left, List.take_succ_cons,
    List.take_of_length_le (by omega)]
  exact ⟨_, rfl⟩

end Luminix
