import Luminix.CLib.CString

/-!
# JSON texts

The grammar of RFC 8259, for texts that are one value (`JsonDocument`) or one object (`JsonText`).
Each rule carries the white space that the RFC allows around its structural characters.  This is a
specification: no function of the source is translated here.
-/

namespace Luminix

open CLib

/-- `ws` -/
def IsJsonBlank (l : List UInt8) : Prop := ∀ c ∈ l, c ∈ ascii " \t\n\r"

theorem isJsonBlank_nil : IsJsonBlank [] := fun _ hc => absurd hc List.not_mem_nil

/-! ### Numbers -/

/-- `1*DIGIT` -/
def IsJsonDigits (l : List UInt8) : Prop := l ≠ [] ∧ ∀ c ∈ l, isDigit c = true

/-- `int`: a zero, or digits that do not start with one. -/
def IsJsonInt (l : List UInt8) : Prop := l = ascii "0" ∨ (IsJsonDigits l ∧ l.head? ≠ some 48)

/-- `frac` -/
def IsJsonFrac (l : List UInt8) : Prop := ∃ ds, IsJsonDigits ds ∧ l = 46 :: ds

/-- `exp` -/
def IsJsonExp (l : List UInt8) : Prop :=
  ∃ e ∈ ascii "eE", ∃ sign ∈ [[], ascii "+", ascii "-"], ∃ ds, IsJsonDigits ds ∧ l = e :: (sign ++ ds)

/-- `number` -/
def JsonNumber (l : List UInt8) : Prop :=
  ∃ minus int frac exp, l = minus ++ (int ++ (frac ++ exp)) ∧ (minus = [] ∨ minus = ascii "-") ∧
    IsJsonInt int ∧ (frac = [] ∨ IsJsonFrac frac) ∧ (exp = [] ∨ IsJsonExp exp)

/-! ### Strings -/

/-- `HEXDIG` -/
def isHexDigit (c : UInt8) : Bool :=
  isDigit c || (65 ≤ c && c ≤ 70) || (97 ≤ c && c ≤ 102)

/-- `*char`, in UTF-8. -/
inductive JsonChars : List UInt8 → Prop
  | nil : JsonChars []
  | unescaped {c : Char} {l : List UInt8} (hcontrol : 32 ≤ c.toNat) (hquote : c ≠ '"')
      (hescape : c ≠ '\\') (h : JsonChars l) : JsonChars (String.utf8EncodeChar c ++ l)
  | escaped {c : UInt8} {l : List UInt8} (hc : c ∈ ascii "\"\\/bfnrt") (h : JsonChars l) :
      JsonChars (92 :: c :: l)
  | unicode {hex l : List UInt8} (hlength : hex.length = 4) (hhex : ∀ c ∈ hex, isHexDigit c = true)
      (h : JsonChars l) : JsonChars (92 :: 117 :: (hex ++ l))

/-! ### Values -/

mutual

/-- `value` -/
inductive JsonValue : List UInt8 → Prop
  | word {l : List UInt8} (h : l ∈ [ascii "false", ascii "null", ascii "true"]) : JsonValue l
  | number {l : List UInt8} (h : JsonNumber l) : JsonValue l
  | string {l : List UInt8} (h : JsonChars l) : JsonValue (34 :: (l ++ [34]))
  | object {l : List UInt8} (h : JsonObject l) : JsonValue l
  | emptyArray {a : List UInt8} (ha : IsJsonBlank a) : JsonValue (91 :: (a ++ [93]))
  | array {l : List UInt8} (h : JsonElements l) : JsonValue (91 :: (l ++ [93]))

/-- `object` -/
inductive JsonObject : List UInt8 → Prop
  | empty {a : List UInt8} (ha : IsJsonBlank a) : JsonObject (123 :: (a ++ [125]))
  | members {l : List UInt8} (h : JsonMembers l) : JsonObject (123 :: (l ++ [125]))

/-- `member`, with the white space around it. -/
inductive JsonMember : List UInt8 → Prop
  | member {a key b c v d : List UInt8} (ha : IsJsonBlank a) (hkey : JsonChars key) (hb : IsJsonBlank b)
      (hc : IsJsonBlank c) (hv : JsonValue v) (hd : IsJsonBlank d) :
      JsonMember (a ++ (34 :: (key ++ 34 :: (b ++ 58 :: (c ++ (v ++ d))))))

/-- `member *( value-separator member )` -/
inductive JsonMembers : List UInt8 → Prop
  | one {m : List UInt8} (h : JsonMember m) : JsonMembers m
  | more {m l : List UInt8} (h : JsonMember m) (hrest : JsonMembers l) : JsonMembers (m ++ 44 :: l)

/-- `value *( value-separator value )`, with the white space around each value. -/
inductive JsonElements : List UInt8 → Prop
  | one {a v b : List UInt8} (ha : IsJsonBlank a) (hv : JsonValue v) (hb : IsJsonBlank b) :
      JsonElements (a ++ (v ++ b))
  | more {a v b l : List UInt8} (ha : IsJsonBlank a) (hv : JsonValue v) (hb : IsJsonBlank b)
      (hrest : JsonElements l) : JsonElements (a ++ (v ++ (b ++ 44 :: l)))

end

/-- Members one after another, without a look into their values. -/
@[elab_as_elim]
theorem JsonMembers.induct {motive : (l : List UInt8) → JsonMembers l → Prop}
    (one : ∀ {m : List UInt8} (h : JsonMember m), motive m (.one h))
    (more : ∀ {m l : List UInt8} (h : JsonMember m) (hrest : JsonMembers l),
      motive l hrest → motive (m ++ 44 :: l) (.more h hrest))
    {l : List UInt8} (h : JsonMembers l) : motive l h := by
  refine @JsonMembers.rec (fun _ _ => True) (fun _ _ => True) (fun _ _ => True) motive
    (fun _ _ => True) ?word ?number ?string ?object ?emptyArray ?array ?empty ?members ?member ?one
    ?more ?oneElement ?moreElements l h
  case one => exact fun h _ => one h
  case more => exact fun h hrest _ ih => more h hrest ih
  all_goals intros; trivial

/-- Elements one after another. -/
@[elab_as_elim]
theorem JsonElements.induct {motive : (l : List UInt8) → JsonElements l → Prop}
    (one : ∀ {a v b : List UInt8} (ha : IsJsonBlank a) (hv : JsonValue v) (hb : IsJsonBlank b),
      motive (a ++ (v ++ b)) (.one ha hv hb))
    (more : ∀ {a v b l : List UInt8} (ha : IsJsonBlank a) (hv : JsonValue v) (hb : IsJsonBlank b)
      (hrest : JsonElements l), motive l hrest →
        motive (a ++ (v ++ (b ++ 44 :: l))) (.more ha hv hb hrest))
    {l : List UInt8} (h : JsonElements l) : motive l h := by
  refine @JsonElements.rec (fun _ _ => True) (fun _ _ => True) (fun _ _ => True) (fun _ _ => True)
    motive ?word ?number ?string ?object ?emptyArray ?array ?empty ?members ?member ?oneMember
    ?moreMembers ?one ?more l h
  case one => exact fun ha hv hb _ => one ha hv hb
  case more => exact fun ha hv hb hrest _ ih => more ha hv hb hrest ih
  all_goals intros; trivial

/-- **A JSON text**, with white space around its value. -/
def JsonDocument (l : List UInt8) : Prop :=
  ∃ a v b, l = a ++ (v ++ b) ∧ IsJsonBlank a ∧ JsonValue v ∧ IsJsonBlank b

/-- **A JSON text** that is one object, with white space around it. -/
def JsonText (l : List UInt8) : Prop :=
  ∃ a v b, l = a ++ (v ++ b) ∧ IsJsonBlank a ∧ JsonObject v ∧ IsJsonBlank b

end Luminix
