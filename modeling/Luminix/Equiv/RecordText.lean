import Luminix.Equiv.JsonTokens
import Luminix.Equiv.Serialize
import Luminix.Json.Record

/-!
# The text of a single record

`record_to_json` writes `recordText`, in the compact and in the pretty layout (`recordToJson_eq`).
The blanks in front of a member follow from the indentation level, which `Appends` keeps track of.
Both layouts are read as the same tokens (`lexes_recordText`).
-/

namespace Luminix

open CLib TokenReader JsonSerializeState

variable {p : Platform}

/-! ### Appending at a level -/

/-- In a layout and at an indentation level, the step appends `text` and leaves another level. -/
def Appends (pretty : Bool) (level : Nat)
    (f : JsonSerializeState → Except ErrorCode JsonSerializeState) (level' : Nat)
    (text : List UInt8) : Prop :=
  ∀ s, s.pretty = pretty → s.indentLevel = level →
    ∃ s', f s = .ok s' ∧ s'.pretty = pretty ∧ s'.indentLevel = level' ∧
      s'.buffer = s.buffer ++ text

section

variable {pretty : Bool} {k m n : Nat} {t u : List UInt8}
  {f g : JsonSerializeState → Except ErrorCode JsonSerializeState}

theorem Appends.bind (hf : Appends pretty k f m t) (hg : Appends pretty m g n u) :
    Appends pretty k (fun s => f s >>= g) n (t ++ u) := by
  intro s hs hk
  obtain ⟨s₁, h₁, hs₁, hm, hb₁⟩ := hf s hs hk
  obtain ⟨s₂, h₂, hs₂, hn, hb₂⟩ := hg s₁ hs₁ hm
  refine ⟨s₂, ?_, hs₂, hn, ?_⟩
  · show f s >>= g = _
    rw [h₁]
    exact h₂
  · rw [hb₂, hb₁, List.append_assoc]

theorem Appends.of_eq (htext : t = u) (h : Appends pretty k f m t) : Appends pretty k f m u :=
  htext ▸ h

theorem Appends.deeper (h : Appends pretty (k + 1) f m t) :
    Appends pretty k (fun s => f s.deeper) m t := by
  intro s hs hk
  refine h s.deeper hs ?_
  show s.indentLevel + 1 = k + 1
  rw [hk]

theorem Appends.shallower (h : Appends pretty k f m t) :
    Appends pretty (k + 1) (fun s => f s.shallower) m t := by
  intro s hs hk
  refine h s.shallower hs ?_
  show s.indentLevel - 1 = k
  rw [hk, Nat.add_sub_cancel]

theorem appends_ok : Appends pretty k .ok k [] := fun s hs hk =>
  ⟨s, rfl, hs, hk, (List.append_nil _).symm⟩

theorem appends_append (hp : p.Faithful) {str : List UInt8} {len : Nat} (h : str.take len = t) :
    Appends pretty k (fun s => s.append p str len) k t := by
  intro s hs hk
  obtain ⟨c, hc⟩ := ensureCapacity_eq hp s len
  refine ⟨{ s with capacity := c, buffer := s.buffer ++ str.take len }, ?_, hs, hk, by rw [h]⟩
  show s.append p str len = _
  rw [append, hc]
  rfl

theorem appends_spaces (hp : p.Faithful) (n : Nat) :
    Appends pretty k (appendSpaces p n) k (List.replicate n 32) := by
  induction n with
  | zero => exact appends_ok
  | succ n ih => exact (appends_append hp rfl).bind ih

/-- `json_serialize_append_string` writes the string with its escapes between quotes. -/
theorem appends_appendString (hp : p.Faithful) (str : CString) :
    Appends pretty k (fun s => s.appendString p str) k (34 :: (escaped str).bytes ++ [34]) := by
  have h : Appends pretty k (fun s => s.append p (ascii "\"") 1 >>= fun s =>
      s.append p (escaped str).bytes (escaped str).bytes.length >>= fun s =>
        s.append p (ascii "\"") 1) k ([34] ++ ((escaped str).bytes ++ [34])) := by
    refine .bind (appends_append hp rfl) (.bind (appends_append hp ?_) (appends_append hp rfl))
    exact List.take_of_length_le (Nat.le_refl _)
  intro s hs hk
  obtain ⟨s', hs', hrest⟩ := h s hs hk
  refine ⟨s', ?_, hrest⟩
  show s.appendString p str = _
  rw [appendString, jsonEscapeStringAlloc_eq hp]
  exact hs'

end

/-! ### The texts -/

/-- The line feed in front of an indentation, in the pretty layout. -/
def breakText (pretty : Bool) : List UInt8 := if pretty then [10] else []

/-- An indentation; it has a line feed of its own. -/
def indentText (pretty : Bool) (level : Nat) : List UInt8 :=
  if pretty then 10 :: List.replicate (level * jsonIndentSize) 32 else []

/-- What `json_serialize_field_value` appends. -/
def fieldText (p : Platform) (f : Field) : List UInt8 :=
  match f.type with
  | .int => decimal f.value.intValue
  | .string => 34 :: (escaped f.value.stringValue).bytes ++ [34]
  | .float | .double => (p.snprintf numberBufferSize (floatText f)).take (floatText f).length
  | .bool => if f.value.boolValue then ascii "true" else ascii "false"
  | .datetime => p.dateTimeText f.value.timeValue
  | .null => ascii "null"
  | .blob | .unknown => ascii "\"\""

/-- A column name between quotes, and the value. -/
def memberText (p : Platform) (pretty : Bool) (c : Column) (f : Field) : List UInt8 :=
  breakText pretty ++ (indentText pretty 2 ++
    (ascii "\"" ++ (c.name.bytes ++ (ascii "\": " ++ fieldText p f))))

/-- The members of the object `fields`, after a member that is already there unless `first`. -/
def membersText (p : Platform) (pretty : Bool) : (first : Bool) → List Column → List Field → List UInt8
  | _, [], _ => []
  | first, c :: cs, fields => (if first then [] else ascii ",") ++
      (memberText p pretty c (fields.headD .zero) ++ membersText p pretty false cs fields.tail)

/-- The end of an object at a level. -/
def closeText (pretty : Bool) (level : Nat) : List UInt8 :=
  breakText pretty ++ (indentText pretty level ++ ascii "\x7d")

/-- The text up to the members of the object `fields`. -/
def openText (pretty : Bool) (id : Int) : List UInt8 :=
  ascii "\x7b" ++ (indentText pretty 1 ++ (ascii "\"id\": " ++ (decimal id ++ (ascii "," ++
    (breakText pretty ++ (indentText pretty 1 ++ ascii "\"fields\": \x7b"))))))

/-- A record. -/
def recordText (p : Platform) (pretty : Bool) (columns : List Column) (r : Record) : List UInt8 :=
  openText pretty r.id ++ (membersText p pretty true columns r.fields ++
    (closeText pretty 1 ++ closeText pretty 0))

/-! ### The writer writes them -/

section

variable {pretty : Bool} {k : Nat}

theorem appends_breakLine (hp : p.Faithful) :
    Appends pretty k (fun s => breakLine p s) k (breakText pretty) := by
  intro s hs hk
  cases pretty with
  | true =>
    obtain ⟨s', h, hrest⟩ : ∃ s', s.append p (ascii "\n") 1 = .ok s' ∧ _ :=
      appends_append hp rfl s hs hk
    refine ⟨s', ?_, hrest⟩
    show breakLine p s = _
    rw [breakLine, if_pos hs]
    exact h
  | false =>
    refine ⟨s, ?_, hs, hk, (List.append_nil _).symm⟩
    show breakLine p s = _
    rw [breakLine, if_neg (by rw [hs]; decide)]

theorem appends_indent (hp : p.Faithful) :
    Appends pretty k (fun s => s.indent p) k (indentText pretty k) := by
  intro s hs hk
  cases pretty with
  | true =>
    have hfeed : Appends true k (fun s => s.append p (ascii "\n") 1) k [10] := appends_append hp rfl
    have hspaces : Appends true k (fun s => appendSpaces p (s.indentLevel * jsonIndentSize) s) k
        (List.replicate (k * jsonIndentSize) 32) := by
      intro s hs hk
      obtain ⟨s', h, hrest⟩ := appends_spaces hp (k * jsonIndentSize) s hs hk
      refine ⟨s', ?_, hrest⟩
      rw [← h, ← hk]
    obtain ⟨s', h, hrest⟩ := hfeed.bind hspaces s hs hk
    refine ⟨s', ?_, hrest⟩
    show s.indent p = _
    rw [indent, if_pos hs]
    exact h
  | false =>
    refine ⟨s, ?_, hs, hk, (List.append_nil _).symm⟩
    show s.indent p = _
    rw [indent, if_neg (by rw [hs]; decide)]

/-- `json_serialize_field_value`. -/
theorem appends_fieldValue (hp : p.Faithful) {f : Field} (htime : f.TimeConverts p) :
    Appends pretty k (fun s => jsonSerializeFieldValue p s f) k (fieldText p f) := by
  have hwhole (l : List UInt8) : l.take l.length = l := List.take_of_length_le (Nat.le_refl _)
  unfold jsonSerializeFieldValue fieldText
  cases hf : f.type with
  | string => exact appends_appendString hp _
  | bool =>
    cases f.value.boolValue with
    | true => exact appends_append hp rfl
    | false => exact appends_append hp rfl
  | int => exact appends_append hp (hwhole _)
  | datetime =>
    simp only [if_pos (htime hf)]
    exact appends_append hp (hwhole _)
  | float => exact appends_append hp rfl
  | double => exact appends_append hp rfl
  | null => exact appends_append hp rfl
  | blob => exact appends_append hp rfl
  | unknown => exact appends_append hp rfl

/-- The loop over the fields. -/
theorem appends_members (hp : p.Faithful) (cs : List Column) (first : Bool) {fields : List Field}
    (htimes : ∀ x ∈ fieldPairs cs fields, x.2.TimeConverts p) :
    Appends pretty 2 (serializeMembers p first cs fields) 2
      (membersText p pretty first cs fields) := by
  induction cs generalizing first fields with
  | nil => exact appends_ok
  | cons c cs ih =>
    rw [fieldPairs, List.forall_mem_cons] at htimes
    have hcomma : Appends pretty 2 (fun s => if first then .ok s else s.append p (ascii ",") 1) 2
        (if first then [] else ascii ",") := by
      cases first with
      | true => exact appends_ok
      | false => exact appends_append hp rfl
    have hname : c.name.bytes.take c.name.length = c.name.bytes :=
      List.take_of_length_le (Nat.le_refl _)
    have hquote : Appends pretty 2 (fun s => s.append p (ascii "\"") 1) 2 (ascii "\"") :=
      appends_append hp rfl
    have hcolon : Appends pretty 2 (fun s => s.append p (ascii "\": ") 3) 2 (ascii "\": ") :=
      appends_append hp rfl
    have hunfold : serializeMembers p first (c :: cs) fields = fun s =>
        (if first then .ok s else s.append p (ascii ",") 1) >>= fun s => breakLine p s >>= fun s =>
          s.indent p >>= fun s => s.append p (ascii "\"") 1 >>= fun s =>
          s.append p c.name.bytes c.name.length >>= fun s => s.append p (ascii "\": ") 3 >>= fun s =>
          jsonSerializeFieldValue p s (fields.headD .zero) >>=
          serializeMembers p false cs fields.tail := by
      cases first <;> rfl
    rw [hunfold]
    refine .of_eq ?_ <| .bind hcomma <| .bind (appends_breakLine hp) <| .bind (appends_indent hp) <|
      .bind hquote <| .bind (appends_append hp hname) <| .bind hcolon <|
      .bind (appends_fieldValue hp htimes.1) <| ih false htimes.2
    simp only [membersText, memberText, List.append_assoc]

/-- The object of `record_to_json`. -/
theorem appends_object (hp : p.Faithful) {cs : List Column} {r : Record}
    (htimes : r.TimesConvert p cs) :
    Appends pretty 0 (fun s => serializeObject p s cs r) 0 (recordText p pretty cs r) := by
  have hid : (decimal r.id).take (decimal r.id).length = decimal r.id :=
    List.take_of_length_le (Nat.le_refl _)
  unfold serializeObject
  refine .of_eq ?_ <| .bind (appends_append hp (t := ascii "\x7b") rfl) <|
    .bind (appends_indent hp).deeper <| .bind (appends_append hp (t := ascii "\"id\": ") rfl) <|
    .bind (appends_append hp hid) <| .bind (appends_append hp (t := ascii ",") rfl) <|
    .bind (appends_breakLine hp) <| .bind (appends_indent hp) <|
    .bind (appends_append hp (t := ascii "\"fields\": \x7b") rfl) <|
    .bind (appends_members hp cs true htimes).deeper <| .bind (appends_breakLine hp) <|
    .bind (appends_indent hp).shallower <| .bind (appends_append hp (t := ascii "\x7d") rfl) <|
    .bind (appends_breakLine hp).shallower <| .bind (appends_indent hp) <|
    appends_append hp (t := ascii "\x7d") rfl
  simp only [recordText, openText, closeText, List.append_assoc]

/-- **The string that is returned.** -/
theorem recordToJson_eq (hp : p.Faithful) {t : Table} {r : Record}
    (htimes : r.TimesConvert p t.columns)
    (options : Option JsonSerializeOptions) : recordToJson p (some r) (some t) options =
      some (CString.ofBytes (recordText p ((options.map (·.pretty)).getD false) t.columns r)) := by
  obtain ⟨s, hs, -, -, hbuffer⟩ := appends_object hp htimes
    ⟨[], jsonBufferSize, 0, (options.map (·.pretty)).getD false⟩ rfl rfl
  rw [recordToJson, if_pos (hp.malloc_eq _)]
  dsimp only at hs ⊢
  rw [hs, Except.toOption, Option.map_some, hbuffer, List.nil_append]

end

/-! ### The reader reads them -/

theorem isSpace_of_mem_breakText {pretty : Bool} {c : UInt8} (h : c ∈ breakText pretty) :
    isSpace c = true := by
  cases pretty with
  | true =>
    obtain rfl := List.mem_singleton.mp h
    rfl
  | false => cases h

theorem isSpace_of_mem_indentText {pretty : Bool} {n : Nat} {c : UInt8} (h : c ∈ indentText pretty n) :
    isSpace c = true := by
  cases pretty with
  | true =>
    rcases List.mem_cons.mp h with rfl | h
    · rfl
    · obtain rfl := List.eq_of_mem_replicate h
      rfl
  | false => cases h

section

variable (pretty : Bool)

/-- A line break and an indentation. -/
theorem Lexes.indented {text : List UInt8} {toks : List JsonToken} {o : Bool}
    (h : Lexes text toks o) (n : Nat) :
    Lexes (breakText pretty ++ (indentText pretty n ++ text)) toks o :=
  (h.blank_append fun _ => isSpace_of_mem_indentText).blank_append fun _ => isSpace_of_mem_breakText

theorem lexes_closeText (n : Nat) : Lexes (closeText pretty n) [.objectEnd] false := by
  have hclose : Lexes (ascii "\x7d") [.objectEnd] false := fun _ _ => .token (by simp) rfl (.done rfl)
  exact hclose.indented pretty n

theorem closes_closeText (n : Nat) : Closes (closeText pretty n) := by
  cases pretty with
  | true => exact closes_cons rfl
  | false => exact closes_cons rfl

theorem lexes_fieldText (hp : p.Faithful) (f : Field) :
    Lexes (fieldText p f) (valueTokens p f) true := by
  -- The text of a time is the same where all times are converted.
  let q : Platform := { p with localtime := fun _ => true }
  have hq : q.Faithful := ⟨hp.malloc_eq, hp.dateTimeText_eq, hp.opensForWriting_eq, hp.fwrite_eq⟩
  have htime : f.TimeConverts q := fun _ => rfl
  let s₀ : JsonSerializeState := ⟨[], jsonBufferSize, 0, true⟩
  obtain ⟨s, text, hs, -, hbuffer, hlex, -⟩ := emits_fieldValue hq htime s₀ rfl
  have happends : Appends true 0 (fun s => jsonSerializeFieldValue q s f) 0 (fieldText q f) :=
    appends_fieldValue hq htime
  obtain ⟨s', hs', -, -, hbuffer'⟩ := happends s₀ rfl rfl
  dsimp only at hs hs'
  obtain rfl : s = s' := Except.ok.inj (hs.symm.trans hs')
  have htext : text = fieldText p f := hbuffer.symm.trans hbuffer'
  rwa [htext] at hlex

theorem lexes_memberText (hp : p.Faithful) {c : Column} (hc : IsKey c.name) (f : Field) :
    Lexes (memberText p pretty c f) (keyTokens c.name ++ valueTokens p f) true := by
  have hmember := ((lexes_key hc).append (lexes_fieldText hp f) (by simp)).indented pretty 2
  simpa only [memberText, List.append_assoc] using hmember

/-- The tokens of the members. -/
def membersTokens (p : Platform) (cs : List Column) (fields : List Field) : List (List JsonToken) :=
  (fieldPairs cs fields).map fun x => keyTokens x.1.name ++ valueTokens p x.2

/-- The members behind the first, and the end of the object. -/
theorem lexes_further (hp : p.Faithful) {cs : List Column} (hcs : ∀ c ∈ cs, IsKey c.name)
    (fields : List Field) (n : Nat) :
    Lexes (membersText p pretty false cs fields ++ closeText pretty n)
      (((membersTokens p cs fields).flatMap fun y => .comma :: y) ++ [.objectEnd]) false ∧
      Closes (membersText p pretty false cs fields ++ closeText pretty n) := by
  induction cs generalizing fields with
  | nil => exact ⟨lexes_closeText pretty n, closes_closeText pretty n⟩
  | cons c cs ih =>
    obtain ⟨hlex, hcloses⟩ := ih (fun d hd => hcs d (List.mem_cons_of_mem c hd)) fields.tail
    have hcomma : Lexes (ascii ",") [.comma] false := fun _ _ => .token (by simp) rfl (.done rfl)
    have hmember := (lexes_memberText pretty hp (hcs c List.mem_cons_self)
      (fields.headD .zero)).append hlex fun _ => hcloses
    refine ⟨?_, closes_cons rfl⟩
    simpa [membersText, membersTokens, fieldPairs] using hcomma.append hmember (by simp)

/-- The object `fields`, behind its brace. -/
theorem lexes_members (hp : p.Faithful) {cs : List Column} (hcs : ∀ c ∈ cs, IsKey c.name)
    (fields : List Field) (n : Nat) :
    Lexes (membersText p pretty true cs fields ++ closeText pretty n)
      (fieldsTokens p (fieldPairs cs fields)) false := by
  cases cs with
  | nil => exact lexes_closeText pretty n
  | cons c cs =>
    obtain ⟨hlex, hcloses⟩ :=
      lexes_further pretty hp (fun d hd => hcs d (List.mem_cons_of_mem c hd)) fields.tail n
    have hmember := (lexes_memberText pretty hp (hcs c List.mem_cons_self)
      (fields.headD .zero)).append hlex fun _ => hcloses
    have htokens : fieldsTokens p (fieldPairs (c :: cs) fields) = keyTokens c.name ++
        valueTokens p (fields.headD .zero) ++
          (((membersTokens p cs fields.tail).flatMap fun y => .comma :: y) ++ [.objectEnd]) := by
      rw [fieldsTokens, objectTail, fieldPairs, List.map_cons, sepBy_cons, List.append_assoc]
      rfl
    rw [htokens, membersText, if_pos rfl, List.nil_append, List.append_assoc]
    exact hmember

/-- The tokens up to the members of the object `fields`. -/
def openTokens (id : Int) : List JsonToken :=
  [.objectStart, .string (cstr "id"), .colon, .number (CString.ofBytes (decimal id)), .comma,
    .string (cstr "fields"), .colon, .objectStart]

theorem lexes_openText (id : Int) : Lexes (openText pretty id) (openTokens id) false := by
  have hopen : Lexes (ascii "\x7b") [.objectStart] false := fun _ _ =>
    .token (by simp) rfl (.done rfl)
  have hid : Lexes (ascii "\"id\": ") [.string (cstr "id"), .colon] false := fun _ _ =>
    .token (by simp) rfl (.token (by simp) rfl (.done rfl))
  have hcomma : Lexes (ascii ",") [.comma] false := fun _ _ => .token (by simp) rfl (.done rfl)
  have hfields : Lexes (ascii "\"fields\": \x7b") [.string (cstr "fields"), .colon, .objectStart]
      false := fun _ _ =>
    .token (by simp) rfl (.token (by simp) rfl (.token (by simp) rfl (.done rfl)))
  have hnumber := lexes_number (isNumber_decimal id)
  have hmember := hid.append (hnumber.append (hcomma.append (hfields.indented pretty 1) (by simp))
    fun _ => closes_cons rfl) (by simp)
  exact hopen.append (hmember.blank_append fun _ => isSpace_of_mem_indentText) (by simp)

/-- **The tokens of a record**, in both layouts. -/
theorem lexes_recordText (hp : p.Faithful) {cs : List Column} (hcs : ∀ c ∈ cs, IsKey c.name)
    (r : Record) : Lexes (recordText p pretty cs r)
      (openTokens r.id ++ (fieldsTokens p (fieldPairs cs r.fields) ++ [.objectEnd])) false := by
  have hmembers := (lexes_members pretty hp hcs r.fields 1).append (lexes_closeText pretty 0)
    (by simp)
  rw [List.append_assoc] at hmembers
  exact (lexes_openText pretty r.id).append hmembers (by simp)

end

/-! ### No character is NUL -/

theorem zero_notMem_membersText {pretty : Bool} {cs : List Column} {fields : List Field}
    (h : ∀ x ∈ fieldPairs cs fields, (0 : UInt8) ∉ fieldText p x.2) (first : Bool) :
    (0 : UInt8) ∉ membersText p pretty first cs fields := by
  induction cs generalizing fields first with
  | nil => exact List.not_mem_nil
  | cons c cs ih =>
    rw [fieldPairs, List.forall_mem_cons] at h
    have hcomma : (0 : UInt8) ∉ if first then [] else ascii "," := by
      cases first <;> decide
    have hbreak : (0 : UInt8) ∉ breakText pretty := by
      cases pretty <;> decide
    have hindent : (0 : UInt8) ∉ indentText pretty 2 := by
      cases pretty <;> decide
    have hquote : (0 : UInt8) ∉ ascii "\"" ∧ (0 : UInt8) ∉ ascii "\": " := by decide
    simp only [membersText, memberText, List.mem_append, not_or]
    exact ⟨hcomma, ⟨hbreak, hindent, hquote.1, c.name.nulFree, hquote.2, h.1⟩, ih h.2 false⟩

theorem zero_notMem_recordText {pretty : Bool} {cs : List Column} {r : Record}
    (h : ∀ x ∈ fieldPairs cs r.fields, (0 : UInt8) ∉ fieldText p x.2) :
    (0 : UInt8) ∉ recordText p pretty cs r := by
  have hclose : (0 : UInt8) ∉ closeText pretty 1 ++ closeText pretty 0 := by
    cases pretty <;> decide
  have hblank : (0 : UInt8) ∉ breakText pretty ∧ (0 : UInt8) ∉ indentText pretty 1 := by
    cases pretty <;> decide
  have hlit : (0 : UInt8) ∉ ascii "\x7b" ∧ (0 : UInt8) ∉ ascii "\"id\": " ∧ (0 : UInt8) ∉ ascii "," ∧
      (0 : UInt8) ∉ ascii "\"fields\": \x7b" := by decide
  have hmembers : (0 : UInt8) ∉ membersText p pretty true cs r.fields := zero_notMem_membersText h true
  rw [recordText, openText]
  simp only [List.mem_append, not_or] at hclose ⊢
  exact ⟨⟨hlit.1, hblank.2, hlit.2.1, zero_notMem_decimal r.id, hlit.2.2.1, hblank.1, hblank.2,
    hlit.2.2.2⟩, hmembers, hclose⟩

end Luminix
