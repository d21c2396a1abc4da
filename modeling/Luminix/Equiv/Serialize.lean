import Luminix.Equiv.Wire
import Luminix.Json.File

/-!
# The writer writes the tokens

`Emits f toks` says that the serializer step `f` succeeds and appends a text that is read as `toks`.
Steps compose (`Emits.bind`), so each function of the serializer is checked by going through its
appends in order; the indentation level only changes blanks and is not followed.  `emits_file` is
the result for the whole file.
-/

namespace Luminix

open CLib TokenReader JsonSerializeState

variable {p : Platform}

/-! ### Appending -/

/-- With memory to be had, the capacity is all that is changed. -/
theorem ensureCapacity_eq (hp : p.Faithful) (s : JsonSerializeState) (n : Nat) :
    ∃ c, s.ensureCapacity p n = .ok { s with capacity := c } := by
  unfold ensureCapacity
  dsimp only
  split_ifs with h1 h2
  · exact ⟨_, rfl⟩
  · exact absurd (hp.malloc_eq _) h2
  · exact ⟨s.capacity, rfl⟩

/-- The step appends `text`, whatever the state. -/
def Writes (f : JsonSerializeState → Except ErrorCode JsonSerializeState) (text : List UInt8) : Prop :=
  ∀ s, ∃ s', f s = .ok s' ∧ s'.pretty = s.pretty ∧ s'.buffer = s.buffer ++ text

theorem writes_append (hp : p.Faithful) {str text : List UInt8} {len : Nat}
    (h : str.take len = text) : Writes (fun s => s.append p str len) text := by
  intro s
  obtain ⟨c, hc⟩ := ensureCapacity_eq hp s len
  refine ⟨{ s with capacity := c, buffer := s.buffer ++ str.take len }, ?_, rfl, by rw [h]⟩
  show s.append p str len = _
  rw [append, hc]
  rfl

theorem Writes.bind {f g : JsonSerializeState → Except ErrorCode JsonSerializeState} {t u : List UInt8}
    (hf : Writes f t) (hg : Writes g u) : Writes (fun s => f s >>= g) (t ++ u) := by
  intro s
  obtain ⟨s1, h1, hs1, hb1⟩ := hf s
  obtain ⟨s2, h2, hs2, hb2⟩ := hg s1
  refine ⟨s2, ?_, hs2.trans hs1, ?_⟩
  · show f s >>= g = _
    rw [h1]
    exact h2
  · rw [hb2, hb1, List.append_assoc]

/-- `json_serialize_append_string` writes the string with its escapes between quotes. -/
theorem writes_appendString (hp : p.Faithful) (str : CString) :
    Writes (fun s => s.appendString p str) (34 :: (escaped str).bytes ++ [34]) := by
  have h : Writes (fun s => s.append p (ascii "\"") 1 >>= fun s =>
      s.append p (escaped str).bytes (escaped str).bytes.length >>= fun s =>
        s.append p (ascii "\"") 1) ([34] ++ ((escaped str).bytes ++ [34])) := by
    refine .bind (writes_append hp rfl) (.bind (writes_append hp ?_) (writes_append hp rfl))
    exact List.take_of_length_le (Nat.le_refl _)
  intro s
  obtain ⟨s', hs', hrest⟩ := h s
  refine ⟨s', ?_, hrest⟩
  show s.appendString p str = _
  rw [appendString, jsonEscapeStringAlloc_eq hp]
  exact hs'

/-! ### Emitting tokens -/

/-- The step appends a text that is read as `toks`.  `closes` promises that the text ends a number
before it, `opened` warns that it may end in one itself. -/
def Emits (f : JsonSerializeState → Except ErrorCode JsonSerializeState) (toks : List JsonToken)
    (closes opened : Bool) : Prop :=
  ∀ s, s.pretty = true → ∃ s' text, f s = .ok s' ∧ s'.pretty = true ∧
    s'.buffer = s.buffer ++ text ∧ Lexes text toks opened ∧ (closes = true → Closes text)

section

variable {f g : JsonSerializeState → Except ErrorCode JsonSerializeState} {k l : List JsonToken}
  {c c' o o' : Bool}

theorem Writes.emits {text : List UInt8} (h : Writes f text) (hlex : Lexes text k o)
    (hc : c = true → Closes text) : Emits f k c o := by
  intro s hs
  obtain ⟨s', hf, hs', hb⟩ := h s
  exact ⟨s', text, hf, hs'.trans hs, hb, hlex, hc⟩

/-- One step after another, the second of which ends a number that the first may have written. -/
theorem Emits.append (hf : Emits f k c o) (hg : Emits g l c' o') (ho : o = true → c' = true) :
    Emits (fun s => f s >>= g) (k ++ l) c o' := by
  intro s hs
  obtain ⟨s1, t, h1, hs1, hb1, hl1, hc1⟩ := hf s hs
  obtain ⟨s2, u, h2, hs2, hb2, hl2, hc2⟩ := hg s1 hs1
  refine ⟨s2, t ++ u, ?_, hs2, ?_, hl1.append hl2 fun h => hc2 (ho h), fun h => ?_⟩
  · show f s >>= g = _
    rw [h1]
    exact h2
  · rw [hb2, hb1, List.append_assoc]
  · obtain ⟨hne, hclose⟩ := hc1 h
    exact ⟨by simp [hne], (hc1 h).append u⟩

/-- **One step after another.** -/
theorem Emits.bind (hf : Emits f k c false) (hg : Emits g l c' o') :
    Emits (fun s => f s >>= g) (k ++ l) c o' :=
  hf.append hg nofun

/-- One step after another that may have written a number. -/
theorem Emits.bindOpen (hf : Emits f k c true) (hg : Emits g l true o') :
    Emits (fun s => f s >>= g) (k ++ l) c o' :=
  hf.append hg fun _ => rfl

theorem Emits.weaken (h : Emits f k c o) : Emits f k false o := by
  intro s hs
  obtain ⟨s', text, h1, h2, h3, h4, -⟩ := h s hs
  exact ⟨s', text, h1, h2, h3, h4, nofun⟩

theorem Emits.of_eq (hk : k = l) (h : Emits f k c o) : Emits f l c o := hk ▸ h

/-- A step does not look at the indentation level. -/
theorem Emits.deeper (h : Emits f k c o) : Emits (fun s => f s.deeper) k c o :=
  fun s hs => h s.deeper hs

theorem Emits.shallower (h : Emits f k c o) : Emits (fun s => f s.shallower) k c o :=
  fun s hs => h s.shallower hs

/-- Nothing is written. -/
theorem emits_ok : Emits .ok [] false false := fun s hs =>
  ⟨s, [], rfl, hs, (List.append_nil _).symm, fun _ _ => .done rfl, nofun⟩

end

/-- The step is one of the two. -/
theorem emits_ite {f g : JsonSerializeState → Except ErrorCode JsonSerializeState} {k l : List JsonToken}
    {c o : Bool} (b : Bool) (hf : b = true → Emits f k c o) (hg : b = false → Emits g l c o) :
    Emits (fun s => if b then f s else g s) (if b then k else l) c o := by
  cases b with
  | true => exact hf rfl
  | false => exact hg rfl

/-- A literal of the source with the length it is counted as. -/
theorem emits_lit (hp : p.Faithful) {text : List UInt8} {len : Nat} {k : List JsonToken} {c : Bool}
    (hlen : text.take len = text) (hlex : ∀ r, Reads jsonParseToken .none k (text ++ r) r)
    (hc : c = true → Closes text) : Emits (fun s => s.append p text len) k c false :=
  (writes_append hp hlen).emits (fun r _ => hlex r) hc

theorem closes_cons {d : UInt8} {l : List UInt8} (h : isNumberByte d = false) : Closes (d :: l) :=
  ⟨List.cons_ne_nil d l, endsNumber_cons h l⟩

theorem emits_spaces (hp : p.Faithful) (n : Nat) : Emits (appendSpaces p n) [] false false := by
  induction n with
  | zero => exact emits_ok
  | succ n ih =>
    have hspace : Emits (fun s => s.append p (ascii " ") 1) [] false false :=
      (writes_append hp rfl).emits (lexes_space rfl) nofun
    exact hspace.bind ih

/-- An indentation starts with a line feed. -/
theorem emits_indent (hp : p.Faithful) : Emits (fun s => s.indent p) [] true false := by
  have hnl : Emits (fun s => s.append p (ascii "\n") 1) [] true false :=
    (writes_append hp rfl).emits (lexes_space rfl) fun _ => closes_cons rfl
  have hspaces : Emits (fun s => appendSpaces p (s.indentLevel * jsonIndentSize) s) [] false false :=
    fun s hs => emits_spaces hp _ s hs
  intro s hs
  obtain ⟨s', text, h, hrest⟩ := hnl.bind hspaces s hs
  refine ⟨s', text, ?_, hrest⟩
  show s.indent p = _
  rw [indent, if_pos hs]
  exact h

/-- An escaped string. -/
theorem emits_appendString (hp : p.Faithful) (str : CString) :
    Emits (fun s => s.appendString p str) [.string (escaped str)] false false := by
  have hlex := lexes_quoted (quotable_escaped str.bytes)
  have hval : CString.ofBytes (str.bytes.flatMap escapeByte) = escaped str :=
    CString.ofBytes_bytes (escaped str)
  rw [hval] at hlex
  exact (writes_appendString hp str).emits hlex nofun

/-- A number. -/
theorem emits_number (hp : p.Faithful) {n : List UInt8} (h : IsNumber n) :
    Emits (fun s => s.append p n n.length) [.number (CString.ofBytes n)] false true :=
  (writes_append hp (List.take_of_length_le (Nat.le_refl _))).emits (lexes_number h) nofun

/-- A time. -/
theorem emits_dateTime (hp : p.Faithful) (t : Int) :
    Emits (fun s => s.append p (p.dateTimeText t) (p.dateTimeText t).length)
      [.string (unquoted (p.dateTimeText t))] false false := by
  obtain ⟨body, hplain, ht⟩ := hp.dateTimeText_eq t
  have hlex := lexes_quoted (quotable_of_plain hplain)
  have hbody : unquoted (p.dateTimeText t) = CString.ofBytes body := by
    rw [unquoted, ht]
    simp
  rw [← ht, ← hbody] at hlex
  exact (writes_append hp (List.take_of_length_le (Nat.le_refl _))).emits hlex nofun

/-! ### Number texts -/

theorem isNumber_natDecimal (n : Nat) : IsNumber (natDecimal n) :=
  ⟨natDecimal n, [], fun _ => isDigit_of_mem_natDecimal, .inl rfl,
    .inr ⟨natDecimal_ne_nil n, (List.append_nil _).symm⟩⟩

theorem isNumber_decimal (n : Int) : IsNumber (decimal n) := by
  unfold decimal
  split_ifs
  · exact ⟨natDecimal n.natAbs, [], fun _ => isDigit_of_mem_natDecimal, .inl rfl,
      .inl (by rw [List.append_nil])⟩
  · exact isNumber_natDecimal n.natAbs

/-- A finite value is printed as a number. -/
theorem isNumber_fixedText {F : IeeeFormat} {bits : Nat} (h : F.isFinite bits = true) (d : Nat) :
    IsNumber (fixedText F d bits) := by
  refine ⟨natDecimal (F.scaled d bits / 10 ^ d), 46 :: decimals d (F.scaled d bits % 10 ^ d),
    fun _ => isDigit_of_mem_natDecimal, .inr ⟨_, fun _ => isDigit_of_mem_decimals, rfl⟩, ?_⟩
  unfold fixedText
  rw [if_pos h]
  split_ifs
  · exact .inl rfl
  · exact .inr ⟨natDecimal_ne_nil _, rfl⟩

/-- A number that is cut off is still one. -/
theorem IsNumber.take {n : List UInt8} (h : IsNumber n) (m : Nat) : IsNumber (n.take (m + 1)) := by
  obtain ⟨ds, frac, hds, hfrac, hn⟩ := h
  rcases hn with rfl | ⟨hne, rfl⟩
  · refine ⟨ds.take m, frac.take (m - ds.length), fun c hc => hds c (List.mem_of_mem_take hc),
      hfrac.take _, .inl ?_⟩
    rw [List.take_succ_cons, List.take_append]
  · refine ⟨ds.take (m + 1), frac.take (m + 1 - ds.length),
      fun c hc => hds c (List.mem_of_mem_take hc), hfrac.take _, .inr ⟨?_, List.take_append⟩⟩
    simpa using hne

/-! ### Values -/

/-- A number, and a character no token starts with after it. -/
theorem lexes_number_bad {n : List UInt8} (h : IsNumber n) {d : UInt8} {u : List UInt8}
    (hd : isNumberByte d = false)
    (hbad : ∀ r, jsonParseToken (d :: (u ++ r)) = (.none, d :: (u ++ r))) :
    Lexes (n ++ d :: u) [.number (CString.ofBytes n), .none] false := by
  have hlex : Lexes (d :: u) [.none] false := fun r _ => .stuck (hbad r) (hbad r)
  exact (lexes_number h).append hlex fun _ => closes_cons hd

/-- What `%f` prints, in the buffer it is printed to. -/
theorem lexes_float (p : Platform) (F : IeeeFormat) (d bits : Nat) :
    Lexes ((p.snprintf numberBufferSize (fixedText F d bits)).take (fixedText F d bits).length)
      (floatTokens F bits (fixedText F d bits)) true := by
  unfold floatTokens
  split_ifs with hfin hlen hneg
  · rw [p.take_snprintf hlen]
    exact lexes_number (isNumber_fixedText hfin d)
  · -- The text is cut after 31 characters, and its terminator is no part of a token.
    obtain ⟨r, hr⟩ := p.take_snprintf_of_le (by decide) (not_lt.mp hlen)
    rw [hr]
    exact (lexes_number_bad ((isNumber_fixedText hfin d).take 30) rfl fun _ => rfl).opened true
  all_goals
    have hword : fixedText F d bits = (if F.isNegative bits then [45] else []) ++ ascii "inf" ∨
        fixedText F d bits = (if F.isNegative bits then [45] else []) ++ ascii "nan" := by
      unfold fixedText
      rw [if_neg hfin]
      split_ifs <;> simp
    simp only [hneg, Bool.false_eq_true, if_true, if_false, List.nil_append] at hword
  · -- A sign is read as a number, and the word after it is not read.
    have hsign : IsNumber [45] := ⟨[], [], nofun, .inl rfl, .inl rfl⟩
    rcases hword with hw | hw
    · rw [hw, p.take_snprintf (by decide)]
      exact (lexes_number_bad hsign rfl fun _ => rfl).opened true
    · rw [hw, p.take_snprintf (by decide)]
      exact (lexes_number_bad hsign rfl fun _ => rfl).opened true
  · rcases hword with hw | hw
    · rw [hw, p.take_snprintf (by decide)]
      exact fun r _ => .stuck rfl rfl
    · rw [hw, p.take_snprintf (by decide)]
      exact fun r _ => .stuck rfl rfl

/-- `json_serialize_field_value`. -/
theorem emits_fieldValue (hp : p.Faithful) {f : Field} (htime : f.TimeConverts p) :
    Emits (fun s => jsonSerializeFieldValue p s f) (valueTokens p f) false true := by
  have hopen : ∀ {g : JsonSerializeState → Except ErrorCode JsonSerializeState} {k : List JsonToken},
      Emits g k false false → Emits g k false true := by
    intro g k h s hs
    obtain ⟨s', text, h1, h2, h3, hlex, hc⟩ := h s hs
    exact ⟨s', text, h1, h2, h3, hlex.opened true, hc⟩
  unfold jsonSerializeFieldValue valueTokens
  -- the text of a number ends open, any other text closes itself
  cases hf : f.type with
  | int => exact emits_number hp (isNumber_decimal _)
  | string => exact hopen (emits_appendString hp _)
  | float =>
    have htext : floatText f = fixedText binary32 6 f.value.floatBits := if_pos hf
    rw [htext]
    exact (writes_append hp rfl).emits (lexes_float p binary32 6 f.value.floatBits) nofun
  | double =>
    have htext : floatText f = fixedText binary64 10 f.value.doubleBits := if_neg (by rw [hf]; simp)
    rw [htext]
    exact (writes_append hp rfl).emits (lexes_float p binary64 10 f.value.doubleBits) nofun
  | bool =>
    cases hb : f.value.boolValue with
    | true => exact hopen (emits_lit hp rfl (fun r => .token nofun rfl (.done rfl)) nofun)
    | false => exact hopen (emits_lit hp rfl (fun r => .token nofun rfl (.done rfl)) nofun)
  | datetime =>
    simp only [if_pos (htime hf)]
    exact hopen (emits_dateTime hp _)
  | null => exact hopen (emits_lit hp rfl (fun r => .token nofun rfl (.done rfl)) nofun)
  | blob => exact hopen (emits_lit hp rfl (fun r => .token nofun rfl (.done rfl)) nofun)
  | unknown => exact hopen (emits_lit hp rfl (fun r => .token nofun rfl (.done rfl)) nofun)

/-! ### Literals that occur often -/

/-- A comma and a line feed. -/
theorem emits_comma (hp : p.Faithful) : Emits (fun s => s.append p (ascii ",\n") 2) [.comma] true false :=
  emits_lit hp rfl (fun _ => .token nofun rfl (.done rfl)) fun _ => closes_cons rfl

/-- A line feed. -/
theorem emits_lineFeed (hp : p.Faithful) : Emits (fun s => s.append p (ascii "\n") 1) [] true false :=
  (writes_append hp rfl).emits (lexes_space rfl) fun _ => closes_cons rfl

/-- The end of an object. -/
theorem emits_objectEnd (hp : p.Faithful) :
    Emits (fun s => s.append p (ascii "\x7d") 1) [.objectEnd] true false :=
  emits_lit hp rfl (fun _ => .token nofun rfl (.done rfl)) fun _ => closes_cons rfl

/-- The start of an object. -/
theorem emits_objectStart (hp : p.Faithful) :
    Emits (fun s => s.append p (ascii "\x7b\n") 2) [.objectStart] true false :=
  emits_lit hp rfl (fun _ => .token nofun rfl (.done rfl)) fun _ => closes_cons rfl

/-- The end of an array. -/
theorem emits_arrayEnd (hp : p.Faithful) :
    Emits (fun s => s.append p (ascii "]") 1) [.arrayEnd] true false :=
  emits_lit hp rfl (fun _ => .token nofun rfl (.done rfl)) fun _ => closes_cons rfl

/-- The key `name`. -/
theorem emits_nameKey (hp : p.Faithful) :
    Emits (fun s => s.append p (ascii "\"name\": ") 8) [.string (cstr "name"), .colon] false false :=
  emits_lit hp rfl (fun _ => .token nofun rfl (.token nofun rfl (.done rfl))) nofun

/-- A separator after an element. -/
theorem emits_separator (hp : p.Faithful) {α : Type} (rest : List α) :
    Emits (fun s => appendSeparator p s rest) (if rest = [] then [] else [.comma]) true false := by
  cases rest with
  | nil => exact emits_lineFeed hp
  | cons a rest =>
    rw [if_neg (List.cons_ne_nil a rest)]
    exact emits_comma hp

/-- Three appends that make up tokens only together. -/
theorem Emits.bind3 {f1 f2 f3 g : JsonSerializeState → Except ErrorCode JsonSerializeState}
    {t1 t2 t3 : List UInt8} {k l : List JsonToken} {c' o' : Bool} (h1 : Writes f1 t1)
    (h2 : Writes f2 t2) (h3 : Writes f3 t3) (hlex : Lexes (t1 ++ (t2 ++ t3)) k false)
    (hg : Emits g l c' o') :
    Emits (fun s => f1 s >>= fun s => f2 s >>= fun s => f3 s >>= g) (k ++ l) false o' := by
  have h := ((h1.bind (h2.bind h3)).emits (c := false) hlex nofun).bind hg
  intro s hs
  obtain ⟨s', text, heq, hrest⟩ := h s hs
  refine ⟨s', text, ?_, hrest⟩
  rw [← heq]
  simp only [bind_assoc]

/-! ### Metadata -/

/-- `json_serialize_database_metadata`. -/
theorem emits_metadata (hp : p.Faithful) (db : Database) :
    Emits (fun s => jsonSerializeDatabaseMetadata p s db)
      (memberTokens (cstr "metadata") (.objectStart :: metadataTokens p db)) true false := by
  have hopen : Emits (fun s => s.append p (ascii "\"metadata\": \x7b\n") 14)
      [.string (cstr "metadata"), .colon, .objectStart] false false :=
    emits_lit hp rfl (fun _ => .token nofun rfl (.token nofun rfl (.token nofun rfl (.done rfl)))) nofun
  have hversion : Lexes (ascii "\"version\": \"" ++ (luminixVersionString ++ ascii "\",\n"))
      [.string (cstr "version"), .colon, .string (cstr "1.0.0"), .comma] false := fun r _ =>
    .token nofun rfl (.token nofun rfl (.token nofun rfl (.token nofun rfl (.done rfl))))
  have hcreated : Emits (fun s => s.append p (ascii "\"created_at\": ") 14)
      [.string (cstr "created_at"), .colon] false false :=
    emits_lit hp rfl (fun _ => .token nofun rfl (.token nofun rfl (.done rfl))) nofun
  have hcount : Emits (fun s => s.append p (ascii "\"table_count\": ") 15)
      [.string (cstr "table_count"), .colon] false false :=
    emits_lit hp rfl (fun _ => .token nofun rfl (.token nofun rfl (.done rfl))) nofun
  unfold jsonSerializeDatabaseMetadata
  -- the calls of the function, in their order
  refine .of_eq ?_ <| .bind (emits_indent hp) <| .bind hopen <| .bind (emits_indent hp).deeper <|
    .bind (emits_nameKey hp) <| .bind (emits_appendString hp _) <| .bind (emits_comma hp) <|
    .bind (emits_indent hp) <|
    .bind3 (writes_append hp rfl) (writes_append hp rfl) (writes_append hp rfl) hversion <|
    .bind (emits_indent hp) <| .bind hcreated <| .bind (emits_dateTime hp _) <|
    .bind (emits_comma hp) <| .bind (emits_indent hp) <| .bind hcount <|
    .bindOpen (emits_number hp (isNumber_decimal _)) <| .bind (emits_lineFeed hp) <|
    .bind (emits_indent hp).shallower (emits_objectEnd hp)
  rfl

/-! ### Schemas -/

/-- The list of constraints, all of which are strings. -/
theorem emits_constraintList (hp : p.Faithful) {l : List (List UInt8 × Nat)} {names : List CString}
    (h : List.Forall₂ (fun x name => Emits (fun s => s.append p x.1 x.2) [.string name] false false)
      l names) (first : Bool) :
    Emits (appendConstraints p first l) (if first then sepBy (names.map fun n => [.string n])
      else (names.map fun n => [.string n]).flatMap fun y => .comma :: y) false false := by
  have hcomma : Emits (fun s => s.append p (ascii ", ") 2) [.comma] false false :=
    emits_lit hp rfl (fun _ => .token nofun rfl (.done rfl)) nofun
  induction h generalizing first with
  | nil =>
    refine .of_eq ?_ emits_ok
    cases first <;> rfl
  | @cons x name l names hx _ ih =>
    have hunfold : appendConstraints p first (x :: l) = fun s =>
        (if first then .ok s else s.append p (ascii ", ") 2) >>= fun s =>
          s.append p x.1 x.2 >>= appendConstraints p false l := by
      cases first <;> rfl
    rw [hunfold]
    refine .of_eq ?_ <| .bind (emits_ite first (fun _ => emits_ok) fun _ => hcomma) <|
      .bind hx (ih false)
    cases first with
    | true => exact (sepBy_cons _ _).symm
    | false => rfl

/-- The constraint list of a column. -/
theorem emits_constraints (hp : p.Faithful) (k : Constraint) :
    Emits (fun s => serializeConstraints p s k)
      (if k.primaryKey || k.unique || !k.nullable then .comma :: memberTokens (cstr "constraints")
        (.arrayStart :: arrayTail ((constraintNames k).map fun s => [.string s])) else [])
      false false := by
  have hopen : Emits (fun s => s.append p (ascii "\"constraints\": [") 16)
      [.string (cstr "constraints"), .colon, .arrayStart] false false :=
    emits_lit hp rfl (fun _ => .token nofun rfl (.token nofun rfl (.token nofun rfl (.done rfl)))) nofun
  have hname : ∀ {text : List UInt8} {len : Nat} {name : CString}, text.take len = text →
      (∀ r, jsonParseToken (text ++ r) = (.string name, r)) →
      Emits (fun s => s.append p text len) [.string name] false false := fun hlen hlex =>
    emits_lit hp hlen (fun r => .token nofun (hlex r) (.done rfl)) nofun
  have hnames : List.Forall₂ (fun x name => Emits (fun s => s.append p x.1 x.2) [.string name]
      false false) (constraintTexts k) (constraintNames k) := by
    have happend : ∀ {l l' : List (List UInt8 × Nat)} {m m' : List CString},
        List.Forall₂ (fun x name => Emits (fun s => s.append p x.1 x.2) [.string name]
          false false) l m →
        List.Forall₂ (fun x name => Emits (fun s => s.append p x.1 x.2) [.string name]
          false false) l' m' →
        List.Forall₂ (fun x name => Emits (fun s => s.append p x.1 x.2) [.string name]
          false false) (l ++ l') (m ++ m') := fun h h' => List.rel_append h h'
    unfold constraintTexts constraintNames
    -- each constraint contributes its name if it is set
    refine happend (happend ?_ ?_) ?_
    · split_ifs
      · exact .cons (hname rfl fun _ => rfl) .nil
      · exact .nil
    · split_ifs
      · exact .cons (hname rfl fun _ => rfl) .nil
      · exact .nil
    · split_ifs
      · exact .cons (hname rfl fun _ => rfl) .nil
      · exact .nil
  unfold serializeConstraints
  refine emits_ite _ (fun _ => ?_) fun _ => emits_ok
  refine .of_eq ?_ <| .bind (emits_comma hp).weaken <| .bind (emits_indent hp) <| .bind hopen <|
    .bind (emits_constraintList hp hnames true) (emits_arrayEnd hp)
  rfl

/-- A column definition. -/
theorem emits_column (hp : p.Faithful) (c : Column) :
    Emits (fun s => serializeColumn p s c) (columnTokens c) true false := by
  have htype : Emits (fun s => s.append p (ascii "\"type\": ") 8) [.string (cstr "type"), .colon]
      false false :=
    emits_lit hp rfl (fun _ => .token nofun rfl (.token nofun rfl (.done rfl))) nofun
  unfold serializeColumn
  refine .of_eq ?_ <| .bind (emits_indent hp) <| .bind (emits_objectStart hp) <|
    .bind (emits_indent hp).deeper <| .bind (emits_nameKey hp) <| .bind (emits_appendString hp _) <|
    .bind (emits_comma hp) <| .bind (emits_indent hp) <| .bind htype <|
    .bind (emits_appendString hp _) <| .bind (emits_constraints hp _) <|
    .bind (emits_indent hp).shallower (emits_objectEnd hp)
  unfold columnTokens columnMembers
  split_ifs <;> rfl

/-- Elements with separators after them. -/
theorem sepBy_cons_separator {α : Type} (f : α → List JsonToken) (a : α) (l : List α) :
    f a ++ ((if l = [] then [] else [.comma]) ++ sepBy (l.map f)) = sepBy ((a :: l).map f) := by
  cases l with
  | nil => simp [sepBy]
  | cons b l => rfl

/-- The loop over the columns. -/
theorem emits_columns (hp : p.Faithful) (cs : List Column) :
    Emits (serializeColumns p cs) (sepBy (cs.map columnTokens)) false false := by
  induction cs with
  | nil => exact emits_ok
  | cons c cs ih =>
    refine .of_eq ?_ <| .bind (emits_column hp c).weaken <| .bind (emits_separator hp cs) ih
    exact sepBy_cons_separator columnTokens c cs

/-- `json_serialize_table_schema`. -/
theorem emits_schema (hp : p.Faithful) (t : Table) :
    Emits (fun s => jsonSerializeTableSchema p s t)
      (memberTokens (cstr "schema") (.objectStart :: schemaTokens t)) true false := by
  have hopen : Emits (fun s => s.append p (ascii "\"schema\": \x7b\n") 12)
      [.string (cstr "schema"), .colon, .objectStart] false false :=
    emits_lit hp rfl (fun _ => .token nofun rfl (.token nofun rfl (.token nofun rfl (.done rfl)))) nofun
  have hfields : Emits (fun s => s.append p (ascii "\"fields\": [\n") 12)
      [.string (cstr "fields"), .colon, .arrayStart] false false :=
    emits_lit hp rfl (fun _ => .token nofun rfl (.token nofun rfl (.token nofun rfl (.done rfl)))) nofun
  have hclose : Emits (fun s => s.append p (ascii "],\n") 3) [.arrayEnd, .comma] false false :=
    emits_lit hp rfl (fun _ => .token nofun rfl (.token nofun rfl (.done rfl))) nofun
  have hcount : Emits (fun s => s.append p (ascii "\"record_count\": ") 16)
      [.string (cstr "record_count"), .colon] false false :=
    emits_lit hp rfl (fun _ => .token nofun rfl (.token nofun rfl (.done rfl))) nofun
  unfold jsonSerializeTableSchema
  refine .of_eq ?_ <| .bind (emits_indent hp) <| .bind hopen <| .bind (emits_indent hp).deeper <|
    .bind (emits_nameKey hp) <| .bind (emits_appendString hp _) <| .bind (emits_comma hp) <|
    .bind (emits_indent hp) <| .bind hfields <| .bind (emits_columns hp t.columns).deeper <|
    .bind (emits_indent hp).shallower <| .bind hclose <| .bind (emits_indent hp) <| .bind hcount <|
    .bindOpen (emits_number hp (isNumber_decimal _)) <|
    .bind (emits_indent hp).shallower (emits_objectEnd hp)
  simp [memberTokens, schemaTokens, objectTail, arrayTail, sepBy]

/-! ### Records -/

/-- A column name as it is written in front of a value. -/
theorem lexes_key {name : CString} (h : IsKey name) :
    Lexes (ascii "\"" ++ (name.bytes ++ ascii "\": ")) (keyTokens name) false := by
  have htext : ∀ r, ascii "\"" ++ (name.bytes ++ ascii "\": ") ++ r =
      34 :: (name.bytes ++ 34 :: 58 :: 32 :: r) := by
    intro r
    show 34 :: (name.bytes ++ [34, 58, 32] ++ r) = _
    rw [List.append_assoc]
    rfl
  intro r _
  rw [htext, keyTokens]
  split_ifs with hq
  · have hkey := parseToken_quoted hq (58 :: 32 :: r)
    rw [CString.ofBytes_bytes] at hkey
    exact .token nofun hkey (.token nofun rfl (.done rfl))
  · -- The name holds a quote, and what follows it starts no token.
    obtain ⟨l₁, hkey, hnone⟩ := parseToken_breaksOff (h.resolve_left hq) (34 :: 58 :: 32 :: r)
    exact .token nofun hkey (.stuck hnone hnone)

/-- The loop over the fields of a record. -/
theorem emits_fields (hp : p.Faithful) {cs : List Column} (hcs : ∀ c ∈ cs, IsKey c.name)
    {fields : List Field} (htimes : ∀ x ∈ fieldPairs cs fields, x.2.TimeConverts p) :
    Emits (serializeFields p cs fields)
      (sepBy ((fieldPairs cs fields).map fun x => keyTokens x.1.name ++ valueTokens p x.2))
      false false := by
  induction cs generalizing fields with
  | nil => exact emits_ok
  | cons c cs ih =>
    -- the separator depends on whether a column is left
    rw [fieldPairs, List.forall_mem_cons] at htimes
    have htail := ih (fun d hd => hcs d (List.mem_cons_of_mem c hd)) htimes.2
    have hstep : Emits (serializeFields p (c :: cs) fields) _ _ _ :=
      .bind (emits_indent hp).weaken <|
      .bind3 (writes_append hp rfl) (writes_append hp (List.take_of_length_le (Nat.le_refl _)))
        (writes_append hp rfl) (lexes_key (hcs c List.mem_cons_self)) <|
      .bindOpen (emits_fieldValue hp htimes.1) <| .bind (emits_separator hp cs) htail
    refine .of_eq ?_ hstep
    have hrest : (fieldPairs cs fields.tail = []) = (cs = []) := by
      cases cs <;> simp [fieldPairs]
    have hsep := sepBy_cons_separator (fun x : Column × Field =>
      keyTokens x.1.name ++ valueTokens p x.2) (c, fields.headD .zero) (fieldPairs cs fields.tail)
    simp only [hrest, List.append_assoc] at hsep
    exact hsep

/-- A record. -/
theorem emits_record (hp : p.Faithful) {cs : List Column}
    (hcs : ∀ c ∈ cs, IsKey c.name) {r : Record} (htimes : r.TimesConvert p cs) :
    Emits (fun s => serializeRecord p s cs r) (recordTokens p cs r) true false := by
  have hid : Emits (fun s => s.append p (ascii "\"id\": ") 6) [.string (cstr "id"), .colon]
      false false :=
    emits_lit hp rfl (fun _ => .token nofun rfl (.token nofun rfl (.done rfl))) nofun
  have hfields : Emits (fun s => s.append p (ascii "\"fields\": \x7b\n") 12)
      [.string (cstr "fields"), .colon, .objectStart] false false :=
    emits_lit hp rfl (fun _ => .token nofun rfl (.token nofun rfl (.token nofun rfl (.done rfl)))) nofun
  have hmeta : Emits (fun s => s.append p (ascii "\"metadata\": \x7b\n") 14)
      [.string (cstr "metadata"), .colon, .objectStart] false false :=
    emits_lit hp rfl (fun _ => .token nofun rfl (.token nofun rfl (.token nofun rfl (.done rfl)))) nofun
  have htime : Emits (fun s => s.append p (ascii "\"timestamp\": ") 13)
      [.string (cstr "timestamp"), .colon] false false :=
    emits_lit hp rfl (fun _ => .token nofun rfl (.token nofun rfl (.done rfl))) nofun
  have hversion : Emits (fun s => s.append p (ascii "\"version\": ") 11)
      [.string (cstr "version"), .colon] false false :=
    emits_lit hp rfl (fun _ => .token nofun rfl (.token nofun rfl (.done rfl))) nofun
  unfold serializeRecord
  refine .of_eq ?_ <| .bind (emits_indent hp) <| .bind (emits_objectStart hp) <|
    .bind (emits_indent hp).deeper <| .bind hid <| .bindOpen (emits_number hp (isNumber_decimal _)) <|
    .bind (emits_comma hp) <| .bind (emits_indent hp) <| .bind hfields <|
    .bind (emits_fields hp hcs htimes).deeper <| .bind (emits_indent hp).shallower <|
    .bind (emits_objectEnd hp) <| .bind (emits_comma hp) <| .bind (emits_indent hp) <|
    .bind hmeta <| .bind (emits_indent hp).deeper <| .bind htime <| .bind (emits_dateTime hp _) <|
    .bind (emits_comma hp) <| .bind (emits_indent hp) <| .bind hversion <|
    .bindOpen (emits_number hp (isNumber_natDecimal _)) <| .bind (emits_indent hp).shallower <|
    .bind (emits_objectEnd hp) <| .bind (emits_indent hp).shallower (emits_objectEnd hp)
  simp [recordTokens, fieldsTokens, unsignedDecimal, memberTokens, objectTail, sepBy]

/-- The loop over the records. -/
theorem emits_records (hp : p.Faithful) {cs : List Column} {rs : List Record}
    (hcs : rs ≠ [] → ∀ c ∈ cs, IsKey c.name) (htimes : ∀ r ∈ rs, r.TimesConvert p cs)
    (first : Bool) : Emits (serializeRecords p cs first rs) (if first then sepBy (rs.map (recordTokens p cs))
      else (rs.map (recordTokens p cs)).flatMap fun y => .comma :: y) false false := by
  induction rs generalizing first with
  | nil =>
    have hstep : Emits (fun s => if first then .ok s else s.append p (ascii "\n") 1) _ _ _ :=
      emits_ite first (fun _ => emits_ok) fun _ => (emits_lineFeed hp).weaken
    refine .of_eq ?_ hstep
    cases first <;> rfl
  | cons r rs ih =>
    have hcs' := hcs (List.cons_ne_nil r rs)
    rw [List.forall_mem_cons] at htimes
    have hunfold : serializeRecords p cs first (r :: rs) = fun s =>
        (if first then .ok s else s.append p (ascii ",\n") 2) >>= fun s =>
          serializeRecord p s cs r >>= serializeRecords p cs false rs := by
      cases first <;> rfl
    rw [hunfold]
    refine .of_eq ?_ <| .bind (emits_ite first (fun _ => emits_ok) fun _ => (emits_comma hp).weaken) <|
      .bind (emits_record hp hcs' htimes.1) (ih (fun _ => hcs') htimes.2 false)
    cases first with
    | true => exact (sepBy_cons _ _).symm
    | false => rfl

/-- `json_serialize_table_records`. -/
theorem emits_tableRecords (hp : p.Faithful) {t : Table}
    (ht : t.records ≠ [] → ∀ c ∈ t.columns, IsKey c.name)
    (htimes : ∀ r ∈ t.records, r.TimesConvert p t.columns) :
    Emits (fun s => jsonSerializeTableRecords p s t) (memberTokens (cstr "records")
      (.arrayStart :: arrayTail (t.records.map (recordTokens p t.columns)))) true false := by
  have hopen : Emits (fun s => s.append p (ascii "\"records\": [\n") 13)
      [.string (cstr "records"), .colon, .arrayStart] false false :=
    emits_lit hp rfl (fun _ => .token nofun rfl (.token nofun rfl (.token nofun rfl (.done rfl)))) nofun
  unfold jsonSerializeTableRecords
  refine .of_eq ?_ <| .bind (emits_indent hp) <| .bind hopen <|
    .bind (emits_records hp ht htimes true).deeper <| .bind (emits_indent hp).shallower (emits_arrayEnd hp)
  rfl

/-! ### The file -/

/-- A table. -/
theorem emits_table (hp : p.Faithful) {t : Table}
    (ht : t.records ≠ [] → ∀ c ∈ t.columns, IsKey c.name)
    (htimes : ∀ r ∈ t.records, r.TimesConvert p t.columns) :
    Emits (fun s => serializeTable p s t) (tableTokens p t) true false := by
  unfold serializeTable
  refine .of_eq ?_ <| .bind (emits_indent hp) <| .bind (emits_objectStart hp) <|
    .bind (emits_schema hp t).deeper <| .bind (emits_comma hp) <| .bind (emits_tableRecords hp ht htimes) <|
    .bind (emits_indent hp).shallower (emits_objectEnd hp)
  simp [tableTokens, objectTail, sepBy]

/-- The loop over the tables. -/
theorem emits_tables (hp : p.Faithful) {ts : List Table}
    (hts : ∀ t ∈ ts, t.records ≠ [] → ∀ c ∈ t.columns, IsKey c.name)
    (htimes : ∀ t ∈ ts, ∀ r ∈ t.records, r.TimesConvert p t.columns) (first : Bool) :
    Emits (serializeTables p first ts) (if first then sepBy (ts.map (tableTokens p))
      else (ts.map (tableTokens p)).flatMap fun y => .comma :: y) false false := by
  have hcomma : Emits (fun s => s.append p (ascii ",") 1) [.comma] false false :=
    emits_lit hp rfl (fun _ => .token nofun rfl (.done rfl)) nofun
  induction ts generalizing first with
  | nil =>
    refine .of_eq ?_ emits_ok
    cases first <;> rfl
  | cons t ts ih =>
    have hunfold : serializeTables p first (t :: ts) = fun s =>
        (if first then .ok s else s.append p (ascii ",") 1) >>= fun s =>
          serializeTable p s t >>= serializeTables p false ts := by
      cases first <;> rfl
    rw [hunfold]
    refine .of_eq ?_ <| .bind (emits_ite first (fun _ => emits_ok) fun _ => hcomma) <|
      .bind (emits_table hp (hts t List.mem_cons_self) (htimes t List.mem_cons_self))
        (ih (fun u hu => hts u (List.mem_cons_of_mem t hu))
          (fun u hu => htimes u (List.mem_cons_of_mem t hu)) false)
    cases first with
    | true => exact (sepBy_cons _ _).symm
    | false => rfl

/-- **The file that is saved is read as the tokens of the database.** -/
theorem dbSaveToFile_reads (hp : p.Faithful) {db : Database} (hdb : db.HasKeys)
    (htimes : db.TimesConvert p) :
    ∃ text, dbSaveToFile p db = (.success, some text) ∧
      Reads jsonParseToken .none (fileTokens p db) text [] := by
  have hstart : Emits (fun s => s.append p (ascii "\x7b") 1) [.objectStart] false false :=
    emits_lit hp rfl (fun _ => .token nofun rfl (.done rfl)) nofun
  have hcomma : Emits (fun s => s.append p (ascii ",") 1) [.comma] false false :=
    emits_lit hp rfl (fun _ => .token nofun rfl (.done rfl)) nofun
  have hopen : Emits (fun s => s.append p (ascii "\"tables\": [") 11)
      [.string (cstr "tables"), .colon, .arrayStart] false false :=
    emits_lit hp rfl (fun _ => .token nofun rfl (.token nofun rfl (.token nofun rfl (.done rfl)))) nofun
  have hall := Emits.bind hstart <| .bind (emits_metadata hp db).deeper <| .bind hcomma <|
    .bind (emits_indent hp) <| .bind hopen <| .bind (emits_tables hp hdb htimes true).deeper <|
    .bind (emits_indent hp).shallower <| .bind (emits_arrayEnd hp) <|
    .bind (emits_indent hp).shallower (emits_objectEnd hp)
  obtain ⟨s, text, hs, -, hbuf, hlex, -⟩ := hall ⟨[], jsonBufferSize, 0, true⟩ rfl
  have hser : serializeDatabase p db = .ok s := by
    rw [serializeDatabase, if_pos (hp.malloc_eq _)]
    exact hs
  have hreads := hlex.alone
  rw [List.nil_append] at hbuf
  refine ⟨text, ?_, ?_⟩
  · rw [dbSaveToFile, hser]
    dsimp only
    rw [if_pos hp.opensForWriting_eq, hp.fwrite_eq, hbuf, if_pos rfl, List.take_length]
  · convert hreads using 1
    simp [fileTokens, memberTokens, objectTail, arrayTail, sepBy]

/-! ### Times that cannot be written -/

/-- The step only succeeds if `Q` holds. -/
def Requires (f : JsonSerializeState → Except ErrorCode JsonSerializeState) (Q : Prop) : Prop :=
  ∀ s s', f s = .ok s' → Q

/-- Steps that have succeeded one after the other. -/
theorem exists_of_bind_eq_ok {α β ε : Type} {x : Except ε α} {f : α → Except ε β} {b : β}
    (h : x >>= f = .ok b) : ∃ a, x = .ok a ∧ f a = .ok b := by
  cases x with
  | error e => cases h
  | ok a => exact ⟨a, rfl, h⟩

section

variable {f g : JsonSerializeState → Except ErrorCode JsonSerializeState} {Q : Prop}

theorem Requires.first (h : Requires f Q) : Requires (fun s => f s >>= g) Q := by
  intro s s' (hok : f s >>= g = .ok s')
  obtain ⟨s₁, hf, -⟩ := exists_of_bind_eq_ok hok
  exact h s s₁ hf

theorem Requires.after (h : Requires g Q) : Requires (fun s => f s >>= g) Q := by
  intro s s' (hok : f s >>= g = .ok s')
  obtain ⟨s₁, -, hg⟩ := exists_of_bind_eq_ok hok
  exact h s₁ s' hg

theorem Requires.and {R : Prop} (h : Requires f Q) (h' : Requires f R) : Requires f (Q ∧ R) :=
  fun s s' hok => ⟨h s s' hok, h' s s' hok⟩

theorem Requires.deeper (h : Requires f Q) : Requires (fun s => f s.deeper) Q :=
  fun s => h s.deeper

end

theorem requires_fieldValue (f : Field) :
    Requires (fun s => jsonSerializeFieldValue p s f) (f.TimeConverts p) := by
  intro s s' h htype
  dsimp only at h
  rw [jsonSerializeFieldValue, htype] at h
  by_contra hnot
  dsimp only at h
  rw [if_neg hnot] at h
  cases h

theorem requires_fields (cs : List Column) (fields : List Field) :
    Requires (serializeFields p cs fields) (∀ x ∈ fieldPairs cs fields, x.2.TimeConverts p) := by
  induction cs generalizing fields with
  | nil => exact fun _ _ _ => nofun
  | cons c cs ih =>
    rw [fieldPairs, List.forall_mem_cons]
    have hvalue : Requires (serializeFields p (c :: cs) fields)
        ((fields.headD .zero).TimeConverts p) :=
      .after <| .after <| .after <| .after <| .first (requires_fieldValue _)
    have hrest : Requires (serializeFields p (c :: cs) fields)
        (∀ x ∈ fieldPairs cs fields.tail, x.2.TimeConverts p) :=
      .after <| .after <| .after <| .after <| .after <| .after (ih fields.tail)
    exact hvalue.and hrest

theorem requires_record (cs : List Column) (r : Record) :
    Requires (fun s => serializeRecord p s cs r) (r.TimesConvert p cs) :=
  .after <| .after <| .after <| .after <| .after <| .after <| .after <| .after <|
    .first (requires_fields cs r.fields).deeper

theorem requires_records (cs : List Column) (rs : List Record) (first : Bool) :
    Requires (serializeRecords p cs first rs) (∀ r ∈ rs, r.TimesConvert p cs) := by
  induction rs generalizing first with
  | nil => exact fun _ _ _ => nofun
  | cons r rs ih =>
    have hunfold : serializeRecords p cs first (r :: rs) = fun s =>
        (if first then .ok s else s.append p (ascii ",\n") 2) >>= fun s =>
          serializeRecord p s cs r >>= serializeRecords p cs false rs := by
      cases first <;> rfl
    rw [hunfold, List.forall_mem_cons]
    exact .and (.after (.first (requires_record cs r))) (.after (.after (ih false)))

theorem requires_table (t : Table) :
    Requires (fun s => serializeTable p s t) (∀ r ∈ t.records, r.TimesConvert p t.columns) := by
  have hrecords : Requires (fun s => jsonSerializeTableRecords p s t)
      (∀ r ∈ t.records, r.TimesConvert p t.columns) :=
    .after <| .after <| .first (requires_records t.columns t.records true).deeper
  exact .after <| .after <| .after <| .after <| .first hrecords

theorem requires_tables (ts : List Table) (first : Bool) :
    Requires (serializeTables p first ts)
      (∀ t ∈ ts, ∀ r ∈ t.records, r.TimesConvert p t.columns) := by
  induction ts generalizing first with
  | nil => exact fun _ _ _ => nofun
  | cons t ts ih =>
    have hunfold : serializeTables p first (t :: ts) = fun s =>
        (if first then .ok s else s.append p (ascii ",") 1) >>= fun s =>
          serializeTable p s t >>= serializeTables p false ts := by
      cases first <;> rfl
    rw [hunfold, List.forall_mem_cons]
    exact .and (.after (.first (requires_table t))) (.after (.after (ih false)))

/-- **A database that has been saved** holds no time that cannot be written. -/
theorem timesConvert_of_save {db : Database} {text : List UInt8}
    (h : (dbSaveToFile p db).2 = some text) : db.TimesConvert p := by
  unfold dbSaveToFile at h
  split at h
  · cases h
  next s hser =>
    unfold serializeDatabase at hser
    split_ifs at hser
    have htables : Requires (fun s => s.append p (ascii "\x7b") 1 >>= fun s =>
        jsonSerializeDatabaseMetadata p s.deeper db >>= fun s => s.append p (ascii ",") 1 >>= fun s =>
          s.indent p >>= fun s => s.append p (ascii "\"tables\": [") 11 >>= fun s =>
            serializeTables p true db.tables s.deeper >>= fun s => s.shallower.indent p >>= fun s =>
              s.append p (ascii "]") 1 >>= fun s => s.shallower.indent p >>= fun s =>
                s.append p (ascii "\x7d") 1) (db.TimesConvert p) :=
      .after <| .after <| .after <| .after <| .after <| .first (requires_tables _ true).deeper
    exact htables _ s hser

/-- What is not saved is not loaded. -/
theorem timesConvert_of_load_save {q : Platform} {counter : Int} {db : Database} {loaded : Store}
    (h : dbLoadFromFile q counter (dbSaveToFile p db).2 = some (some loaded)) :
    db.TimesConvert p := by
  cases hfile : (dbSaveToFile p db).2 with
  | none =>
    rw [hfile] at h
    cases h
  | some text => exact timesConvert_of_save hfile

end Luminix
