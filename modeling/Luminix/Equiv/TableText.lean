import Luminix.Equiv.RecordText
import Luminix.Json.Table

/-!
# The text of a single table

`table_to_json` writes the tokens of a table in the compact and in the pretty layout
(`tableToJson_reads`).  `EmitsIn` is `Emits` for either layout: an indentation, which ends a number
in the pretty layout, is empty in the compact one, so that the brace behind it has to.  As a result
is a string, it also says that no character is NUL.
-/

namespace Luminix

open CLib TokenReader JsonSerializeState

variable {p : Platform} {pretty : Bool}

/-! ### Emitting tokens in a layout -/

/-- In the layout, the step appends a text without NULs that is read as `toks`.  `closes` promises
that the text ends a number before it, `opened` warns that it may end in one itself. -/
def EmitsIn (pretty : Bool) (f : JsonSerializeState → Except ErrorCode JsonSerializeState)
    (toks : List JsonToken) (closes opened : Bool) : Prop :=
  ∀ s, s.pretty = pretty → ∃ s' text, f s = .ok s' ∧ s'.pretty = pretty ∧
    s'.buffer = s.buffer ++ text ∧ 0 ∉ text ∧ Lexes text toks opened ∧ (closes = true → Closes text)

section

variable {f g : JsonSerializeState → Except ErrorCode JsonSerializeState} {k l : List JsonToken}
  {c c' o o' : Bool}

theorem Writes.emitsIn {text : List UInt8} (h : Writes f text) (hzero : 0 ∉ text)
    (hlex : Lexes text k o) (hc : c = true → Closes text) : EmitsIn pretty f k c o := by
  intro s hs
  obtain ⟨s', hf, hs', hb⟩ := h s
  exact ⟨s', text, hf, hs'.trans hs, hb, hzero, hlex, hc⟩

theorem EmitsIn.append (hf : EmitsIn pretty f k c o) (hg : EmitsIn pretty g l c' o')
    (ho : o = true → c' = true) : EmitsIn pretty (fun s => f s >>= g) (k ++ l) c o' := by
  intro s hs
  obtain ⟨s₁, t, h₁, hs₁, hb₁, hz₁, hl₁, hc₁⟩ := hf s hs
  obtain ⟨s₂, u, h₂, hs₂, hb₂, hz₂, hl₂, hc₂⟩ := hg s₁ hs₁
  refine ⟨s₂, t ++ u, ?_, hs₂, ?_, ?_, hl₁.append hl₂ fun h => hc₂ (ho h), fun h => ?_⟩
  · show f s >>= g = _
    rw [h₁]
    exact h₂
  · rw [hb₂, hb₁, List.append_assoc]
  · rw [List.mem_append, not_or]
    exact ⟨hz₁, hz₂⟩
  · exact ⟨List.append_ne_nil_of_left_ne_nil (hc₁ h).1 u, (hc₁ h).append u⟩

/-- **One step after another.** -/
theorem EmitsIn.bind (hf : EmitsIn pretty f k c false) (hg : EmitsIn pretty g l c' o') :
    EmitsIn pretty (fun s => f s >>= g) (k ++ l) c o' :=
  hf.append hg nofun

/-- One step after another that may have written a number. -/
theorem EmitsIn.bindOpen (hf : EmitsIn pretty f k c true) (hg : EmitsIn pretty g l true o') :
    EmitsIn pretty (fun s => f s >>= g) (k ++ l) c o' :=
  hf.append hg fun _ => rfl

theorem EmitsIn.weaken (h : EmitsIn pretty f k c o) : EmitsIn pretty f k false o := by
  intro s hs
  obtain ⟨s', text, h₁, h₂, h₃, h₄, h₅, -⟩ := h s hs
  exact ⟨s', text, h₁, h₂, h₃, h₄, h₅, nofun⟩

theorem EmitsIn.of_eq (hk : k = l) (h : EmitsIn pretty f k c o) : EmitsIn pretty f l c o := hk ▸ h

theorem EmitsIn.deeper (h : EmitsIn pretty f k c o) :
    EmitsIn pretty (fun s => f s.deeper) k c o :=
  fun s hs => h s.deeper hs

theorem EmitsIn.shallower (h : EmitsIn pretty f k c o) :
    EmitsIn pretty (fun s => f s.shallower) k c o :=
  fun s hs => h s.shallower hs

theorem emitsIn_ok : EmitsIn pretty .ok [] false false := fun s hs =>
  ⟨s, [], rfl, hs, (List.append_nil _).symm, List.not_mem_nil, fun _ _ => .done rfl, nofun⟩

theorem emitsIn_ite (b : Bool) (hf : b = true → EmitsIn pretty f k c o)
    (hg : b = false → EmitsIn pretty g l c o) :
    EmitsIn pretty (fun s => if b then f s else g s) (if b then k else l) c o := by
  cases b with
  | true => exact hf rfl
  | false => exact hg rfl

/-- A literal of the source with the length it is counted as. -/
theorem emitsIn_lit (hp : p.Faithful) {text : List UInt8} {len : Nat} (hlen : text.take len = text)
    (hzero : 0 ∉ text) (hlex : ∀ r, Reads jsonParseToken .none k (text ++ r) r)
    (hc : c = true → Closes text) : EmitsIn pretty (fun s => s.append p text len) k c false :=
  (writes_append hp hlen).emitsIn hzero (fun r _ => hlex r) hc

/-- Three appends that make up tokens only together. -/
theorem EmitsIn.bind3 {f₁ f₂ f₃ : JsonSerializeState → Except ErrorCode JsonSerializeState}
    {t₁ t₂ t₃ : List UInt8} (h₁ : Writes f₁ t₁) (h₂ : Writes f₂ t₂) (h₃ : Writes f₃ t₃)
    (hzero : 0 ∉ t₁ ++ (t₂ ++ t₃)) (hlex : Lexes (t₁ ++ (t₂ ++ t₃)) k false)
    (hg : EmitsIn pretty g l c' o') :
    EmitsIn pretty (fun s => f₁ s >>= fun s => f₂ s >>= fun s => f₃ s >>= g) (k ++ l) false o' := by
  have h := ((h₁.bind (h₂.bind h₃)).emitsIn (c := false) hzero hlex nofun).bind hg
  intro s hs
  obtain ⟨s', text, heq, hrest⟩ := h s hs
  refine ⟨s', text, ?_, hrest⟩
  rw [← heq]
  simp only [bind_assoc]

end

/-! ### Blanks and marks -/

/-- An indentation, which may be empty. -/
theorem emitsIn_indent (hp : p.Faithful) :
    EmitsIn pretty (fun s => s.indent p) [] pretty false := by
  intro s hs
  obtain ⟨s', h, hs', -, hbuffer⟩ : ∃ s', s.indent p = .ok s' ∧ _ :=
    appends_indent hp s hs (rfl : s.indentLevel = s.indentLevel)
  have hlex : Lexes (indentText pretty s.indentLevel) [] false := fun r _ =>
    .done (parseToken_blank (fun _ => isSpace_of_mem_indentText) r)
  refine ⟨s', _, h, hs', hbuffer, fun hzero => ?_, hlex, ?_⟩
  · cases isSpace_of_mem_indentText hzero
  · rintro rfl
    exact closes_cons rfl

/-- An indentation in front of what ends a number. -/
theorem EmitsIn.indented (hp : p.Faithful) {k : List JsonToken} {o : Bool}
    {g : JsonSerializeState → Except ErrorCode JsonSerializeState} (hg : EmitsIn pretty g k true o) :
    EmitsIn pretty (fun s => s.indent p >>= g) k true o := by
  cases pretty with
  | true => exact (emitsIn_indent hp).bind hg
  | false =>
    intro s hs
    obtain ⟨s', text, h, hrest⟩ := hg s hs
    refine ⟨s', text, ?_, hrest⟩
    show s.indent p >>= g = _
    rw [indent, if_neg (by rw [hs]; decide)]
    exact h

theorem emitsIn_comma (hp : p.Faithful) :
    EmitsIn pretty (fun s => s.append p (ascii ",\n") 2) [.comma] true false :=
  emitsIn_lit hp rfl (by decide) (fun _ => .token nofun rfl (.done rfl)) fun _ => closes_cons rfl

theorem emitsIn_lineFeed (hp : p.Faithful) :
    EmitsIn pretty (fun s => s.append p (ascii "\n") 1) [] true false :=
  emitsIn_lit hp rfl (by decide) (fun _ => .done rfl) fun _ => closes_cons rfl

theorem emitsIn_objectStart (hp : p.Faithful) :
    EmitsIn pretty (fun s => s.append p (ascii "\x7b\n") 2) [.objectStart] true false :=
  emitsIn_lit hp rfl (by decide) (fun _ => .token nofun rfl (.done rfl)) fun _ => closes_cons rfl

theorem emitsIn_objectEnd (hp : p.Faithful) :
    EmitsIn pretty (fun s => s.append p (ascii "\x7d") 1) [.objectEnd] true false :=
  emitsIn_lit hp rfl (by decide) (fun _ => .token nofun rfl (.done rfl)) fun _ => closes_cons rfl

theorem emitsIn_arrayEnd (hp : p.Faithful) :
    EmitsIn pretty (fun s => s.append p (ascii "]") 1) [.arrayEnd] true false :=
  emitsIn_lit hp rfl (by decide) (fun _ => .token nofun rfl (.done rfl)) fun _ => closes_cons rfl

theorem emitsIn_separator (hp : p.Faithful) {α : Type} (rest : List α) :
    EmitsIn pretty (fun s => appendSeparator p s rest) (if rest = [] then [] else [.comma])
      true false := by
  cases rest with
  | nil => exact emitsIn_lineFeed hp
  | cons a rest =>
    rw [if_neg (List.cons_ne_nil a rest)]
    exact emitsIn_comma hp

/-- An escaped string. -/
theorem emitsIn_appendString (hp : p.Faithful) (str : CString) :
    EmitsIn pretty (fun s => s.appendString p str) [.string (escaped str)] false false := by
  have hlex := lexes_quoted (quotable_escaped str.bytes)
  have hval : CString.ofBytes (str.bytes.flatMap escapeByte) = escaped str :=
    CString.ofBytes_bytes (escaped str)
  rw [hval] at hlex
  refine (writes_appendString hp str).emitsIn ?_ hlex nofun
  simpa using (escaped str).nulFree

/-- A number. -/
theorem emitsIn_number (hp : p.Faithful) {n : List UInt8} (h : IsNumber n) (hzero : 0 ∉ n) :
    EmitsIn pretty (fun s => s.append p n n.length) [.number (CString.ofBytes n)] false true :=
  (writes_append hp (List.take_of_length_le (Nat.le_refl _))).emitsIn hzero (lexes_number h) nofun

/-- A time. -/
theorem emitsIn_dateTime (hp : p.Faithful) (t : Int) :
    EmitsIn pretty (fun s => s.append p (p.dateTimeText t) (p.dateTimeText t).length)
      [.string (unquoted (p.dateTimeText t))] false false := by
  obtain ⟨body, hplain, ht⟩ := hp.dateTimeText_eq t
  have hlex := lexes_quoted (quotable_of_plain hplain)
  have hbody : unquoted (p.dateTimeText t) = CString.ofBytes body := by
    rw [unquoted, ht]
    simp
  have hzero : 0 ∉ body := fun h => absurd (hplain 0 h) (by decide)
  rw [← ht, ← hbody] at hlex
  refine (writes_append hp (List.take_of_length_le (Nat.le_refl _))).emitsIn ?_ hlex (by simp)
  rw [ht]
  simpa using hzero

/-- A value whose text has no NUL. -/
theorem emitsIn_fieldValue (hp : p.Faithful) {f : Field} (htime : f.TimeConverts p)
    (hzero : 0 ∉ fieldText p f) :
    EmitsIn pretty (fun s => jsonSerializeFieldValue p s f) (valueTokens p f) false true := by
  have hwrites : Writes (fun s => jsonSerializeFieldValue p s f) (fieldText p f) := by
    intro s
    obtain ⟨s', h, hs', -, hbuffer⟩ : ∃ s', jsonSerializeFieldValue p s f = .ok s' ∧ _ :=
      appends_fieldValue hp htime s rfl (rfl : s.indentLevel = s.indentLevel)
    exact ⟨s', h, hs', hbuffer⟩
  exact hwrites.emitsIn hzero (lexes_fieldText hp f) (by simp)

/-! ### The schema -/

/-- The list of constraints, all of which are strings. -/
theorem emitsIn_constraintList (hp : p.Faithful) {l : List (List UInt8 × Nat)}
    {names : List CString} (h : List.Forall₂ (fun x name =>
      EmitsIn pretty (fun s => s.append p x.1 x.2) [.string name] false false) l names)
    (first : Bool) :
    EmitsIn pretty (appendConstraints p first l)
      (if first then sepBy (names.map fun n => [.string n])
        else (names.map fun n => [.string n]).flatMap fun y => .comma :: y) false false := by
  have hcomma : EmitsIn pretty (fun s => s.append p (ascii ", ") 2) [.comma] false false :=
    emitsIn_lit hp rfl (by decide) (fun _ => .token nofun rfl (.done rfl)) nofun
  induction h generalizing first with
  | nil =>
    refine .of_eq ?_ emitsIn_ok
    cases first <;> rfl
  | @cons x name l names hx _ ih =>
    have hunfold : appendConstraints p first (x :: l) = fun s =>
        (if first then .ok s else s.append p (ascii ", ") 2) >>= fun s =>
          s.append p x.1 x.2 >>= appendConstraints p false l := by
      cases first <;> rfl
    rw [hunfold]
    refine .of_eq ?_ <| .bind (emitsIn_ite first (fun _ => emitsIn_ok) fun _ => hcomma) <|
      .bind hx (ih false)
    cases first with
    | true => exact (sepBy_cons _ _).symm
    | false => rfl

theorem emitsIn_constraints (hp : p.Faithful) (k : Constraint) :
    EmitsIn pretty (fun s => serializeConstraints p s k)
      (if k.primaryKey || k.unique || !k.nullable then .comma :: memberTokens (cstr "constraints")
        (.arrayStart :: arrayTail ((constraintNames k).map fun s => [.string s])) else [])
      false false := by
  have hopen : EmitsIn pretty (fun s => s.append p (ascii "\"constraints\": [") 16)
      [.string (cstr "constraints"), .colon, .arrayStart] false false :=
    emitsIn_lit hp rfl (by decide)
      (fun _ => .token nofun rfl (.token nofun rfl (.token nofun rfl (.done rfl)))) nofun
  have hnames : List.Forall₂ (fun x name =>
      EmitsIn pretty (fun s => s.append p x.1 x.2) [.string name] false false)
      (constraintTexts k) (constraintNames k) := by
    have hset {b : Bool} {text : List UInt8} {len : Nat} {name : CString}
        (hlen : text.take len = text) (hzero : 0 ∉ text)
        (hlex : ∀ r, jsonParseToken (text ++ r) = (.string name, r)) :
        List.Forall₂ (fun x name =>
          EmitsIn pretty (fun s => s.append p x.1 x.2) [.string name] false false)
          (if b then [(text, len)] else []) (if b then [name] else []) := by
      cases b with
      | true => exact .cons (emitsIn_lit hp hlen hzero
          (fun r => .token nofun (hlex r) (.done rfl)) nofun) .nil
      | false => exact .nil
    exact List.rel_append (List.rel_append (hset rfl (by decide) fun _ => rfl)
      (hset rfl (by decide) fun _ => rfl)) (hset rfl (by decide) fun _ => rfl)
  unfold serializeConstraints
  refine emitsIn_ite _ (fun _ => ?_) fun _ => emitsIn_ok
  refine .of_eq ?_ <| .bind (emitsIn_comma hp).weaken <| .bind (emitsIn_indent hp) <| .bind hopen <|
    .bind (emitsIn_constraintList hp hnames true) (emitsIn_arrayEnd hp)
  rfl

/-- The key `name`. -/
theorem emitsIn_nameKey (hp : p.Faithful) :
    EmitsIn pretty (fun s => s.append p (ascii "\"name\": ") 8) [.string (cstr "name"), .colon]
      false false :=
  emitsIn_lit hp rfl (by decide) (fun _ => .token nofun rfl (.token nofun rfl (.done rfl))) nofun

/-- A column definition. -/
theorem emitsIn_column (hp : p.Faithful) (c : Column) :
    EmitsIn pretty (fun s => serializeColumn p s c) (columnTokens c) false false := by
  have htype : EmitsIn pretty (fun s => s.append p (ascii "\"type\": ") 8)
      [.string (cstr "type"), .colon] false false :=
    emitsIn_lit hp rfl (by decide) (fun _ => .token nofun rfl (.token nofun rfl (.done rfl))) nofun
  unfold serializeColumn
  refine .of_eq ?_ <| .weaken <| .bind (emitsIn_indent hp) <| .bind (emitsIn_objectStart hp) <|
    .bind (emitsIn_indent hp).deeper <| .bind (emitsIn_nameKey hp) <|
    .bind (emitsIn_appendString hp _) <| .bind (emitsIn_comma hp) <| .bind (emitsIn_indent hp) <|
    .bind htype <| .bind (emitsIn_appendString hp _) <| .bind (emitsIn_constraints hp _) <|
    .bind (emitsIn_indent hp).shallower (emitsIn_objectEnd hp)
  unfold columnTokens columnMembers
  split_ifs <;> rfl

/-- The loop over the columns. -/
theorem emitsIn_columns (hp : p.Faithful) (cs : List Column) :
    EmitsIn pretty (serializeColumns p cs) (sepBy (cs.map columnTokens)) false false := by
  induction cs with
  | nil => exact emitsIn_ok
  | cons c cs ih =>
    refine .of_eq ?_ <| .bind (emitsIn_column hp c) <| .bind (emitsIn_separator hp cs) ih
    exact sepBy_cons_separator columnTokens c cs

/-- `json_serialize_table_schema`. -/
theorem emitsIn_schema (hp : p.Faithful) (t : Table) :
    EmitsIn pretty (fun s => jsonSerializeTableSchema p s t)
      (memberTokens (cstr "schema") (.objectStart :: schemaTokens t)) false false := by
  have hopen : EmitsIn pretty (fun s => s.append p (ascii "\"schema\": \x7b\n") 12)
      [.string (cstr "schema"), .colon, .objectStart] false false :=
    emitsIn_lit hp rfl (by decide)
      (fun _ => .token nofun rfl (.token nofun rfl (.token nofun rfl (.done rfl)))) nofun
  have hfields : EmitsIn pretty (fun s => s.append p (ascii "\"fields\": [\n") 12)
      [.string (cstr "fields"), .colon, .arrayStart] false false :=
    emitsIn_lit hp rfl (by decide)
      (fun _ => .token nofun rfl (.token nofun rfl (.token nofun rfl (.done rfl)))) nofun
  have hclose : EmitsIn pretty (fun s => s.append p (ascii "],\n") 3) [.arrayEnd, .comma]
      false false :=
    emitsIn_lit hp rfl (by decide) (fun _ => .token nofun rfl (.token nofun rfl (.done rfl))) nofun
  have hcount : EmitsIn pretty (fun s => s.append p (ascii "\"record_count\": ") 16)
      [.string (cstr "record_count"), .colon] false false :=
    emitsIn_lit hp rfl (by decide) (fun _ => .token nofun rfl (.token nofun rfl (.done rfl))) nofun
  unfold jsonSerializeTableSchema
  refine .of_eq ?_ <| .weaken <| .bind (emitsIn_indent hp) <| .bind hopen <|
    .bind (emitsIn_indent hp).deeper <| .bind (emitsIn_nameKey hp) <|
    .bind (emitsIn_appendString hp _) <| .bind (emitsIn_comma hp) <| .bind (emitsIn_indent hp) <|
    .bind hfields <| .bind (emitsIn_columns hp t.columns).deeper <|
    .bind (emitsIn_indent hp).shallower <| .bind hclose <| .bind (emitsIn_indent hp) <|
    .bind hcount <| .bindOpen (emitsIn_number hp (isNumber_decimal _) (zero_notMem_decimal _)) <|
    -- in the compact layout only the brace ends the number
    .shallower (.indented hp (emitsIn_objectEnd hp))
  simp [memberTokens, schemaTokens, objectTail, arrayTail, sepBy]

/-! ### The records -/

/-- The values of the record have texts, and these have no NULs. -/
def Record.Printable (p : Platform) (columns : List Column) (r : Record) : Prop :=
  ∀ x ∈ fieldPairs columns r.fields, x.2.TimeConverts p ∧ 0 ∉ fieldText p x.2

/-- The loop over the fields of a record. -/
theorem emitsIn_fields (hp : p.Faithful) {cs : List Column} (hcs : ∀ c ∈ cs, IsKey c.name)
    {fields : List Field}
    (hfields : ∀ x ∈ fieldPairs cs fields, x.2.TimeConverts p ∧ 0 ∉ fieldText p x.2) :
    EmitsIn pretty (serializeFields p cs fields)
      (sepBy ((fieldPairs cs fields).map fun x => keyTokens x.1.name ++ valueTokens p x.2))
      false false := by
  induction cs generalizing fields with
  | nil => exact emitsIn_ok
  | cons c cs ih =>
    rw [fieldPairs, List.forall_mem_cons] at hfields
    have htail := ih (fun d hd => hcs d (List.mem_cons_of_mem c hd)) hfields.2
    have hzero : 0 ∉ ascii "\"" ++ (c.name.bytes ++ ascii "\": ") := by
      have hquote : (0 : UInt8) ∉ ascii "\"" ∧ (0 : UInt8) ∉ ascii "\": " := by decide
      simp only [List.mem_append, not_or]
      exact ⟨hquote.1, c.name.nulFree, hquote.2⟩
    have hstep : EmitsIn pretty (serializeFields p (c :: cs) fields) _ _ _ :=
      .bind (emitsIn_indent hp).weaken <|
      .bind3 (writes_append hp rfl) (writes_append hp (List.take_of_length_le (Nat.le_refl _)))
        (writes_append hp rfl) hzero (lexes_key (hcs c List.mem_cons_self)) <|
      .bindOpen (emitsIn_fieldValue hp hfields.1.1 hfields.1.2) <|
      .bind (emitsIn_separator hp cs) htail
    refine .of_eq ?_ hstep
    have hrest : (fieldPairs cs fields.tail = []) = (cs = []) := by
      cases cs <;> simp [fieldPairs]
    have hsep := sepBy_cons_separator (fun x : Column × Field =>
      keyTokens x.1.name ++ valueTokens p x.2) (c, fields.headD .zero) (fieldPairs cs fields.tail)
    simp only [hrest, List.append_assoc] at hsep
    exact hsep

/-- A record. -/
theorem emitsIn_record (hp : p.Faithful) {cs : List Column} (hcs : ∀ c ∈ cs, IsKey c.name)
    {r : Record} (hr : r.Printable p cs) :
    EmitsIn pretty (fun s => serializeRecord p s cs r) (recordTokens p cs r) false false := by
  have hid : EmitsIn pretty (fun s => s.append p (ascii "\"id\": ") 6)
      [.string (cstr "id"), .colon] false false :=
    emitsIn_lit hp rfl (by decide) (fun _ => .token nofun rfl (.token nofun rfl (.done rfl))) nofun
  have hfields : EmitsIn pretty (fun s => s.append p (ascii "\"fields\": \x7b\n") 12)
      [.string (cstr "fields"), .colon, .objectStart] false false :=
    emitsIn_lit hp rfl (by decide)
      (fun _ => .token nofun rfl (.token nofun rfl (.token nofun rfl (.done rfl)))) nofun
  have hmeta : EmitsIn pretty (fun s => s.append p (ascii "\"metadata\": \x7b\n") 14)
      [.string (cstr "metadata"), .colon, .objectStart] false false :=
    emitsIn_lit hp rfl (by decide)
      (fun _ => .token nofun rfl (.token nofun rfl (.token nofun rfl (.done rfl)))) nofun
  have htime : EmitsIn pretty (fun s => s.append p (ascii "\"timestamp\": ") 13)
      [.string (cstr "timestamp"), .colon] false false :=
    emitsIn_lit hp rfl (by decide) (fun _ => .token nofun rfl (.token nofun rfl (.done rfl))) nofun
  have hversion : EmitsIn pretty (fun s => s.append p (ascii "\"version\": ") 11)
      [.string (cstr "version"), .colon] false false :=
    emitsIn_lit hp rfl (by decide) (fun _ => .token nofun rfl (.token nofun rfl (.done rfl))) nofun
  have hunsigned : 0 ∉ unsignedDecimal r.version := fun h =>
    absurd (isDigit_of_mem_natDecimal h) (by decide)
  -- the calls one after another, each at the depth where it is made
  unfold serializeRecord
  refine .of_eq ?_ <| .weaken <| .bind (emitsIn_indent hp) <| .bind (emitsIn_objectStart hp) <|
    .bind (emitsIn_indent hp).deeper <| .bind hid <|
    .bindOpen (emitsIn_number hp (isNumber_decimal _) (zero_notMem_decimal _)) <|
    .bind (emitsIn_comma hp) <| .bind (emitsIn_indent hp) <| .bind hfields <|
    .bind (emitsIn_fields hp hcs hr).deeper <| .bind (emitsIn_indent hp).shallower <|
    .bind (emitsIn_objectEnd hp) <| .bind (emitsIn_comma hp) <| .bind (emitsIn_indent hp) <|
    .bind hmeta <| .bind (emitsIn_indent hp).deeper <| .bind htime <|
    .bind (emitsIn_dateTime hp _) <| .bind (emitsIn_comma hp) <| .bind (emitsIn_indent hp) <|
    .bind hversion <| .bindOpen (emitsIn_number hp (isNumber_natDecimal _) hunsigned) <|
    .shallower <| .indented hp <| .bind (emitsIn_objectEnd hp) <|
    .bind (emitsIn_indent hp).shallower (emitsIn_objectEnd hp)
  simp [recordTokens, fieldsTokens, unsignedDecimal, memberTokens, objectTail, sepBy]

/-- The loop over the records. -/
theorem emitsIn_records (hp : p.Faithful) {cs : List Column} {rs : List Record}
    (hcs : rs ≠ [] → ∀ c ∈ cs, IsKey c.name) (hrs : ∀ r ∈ rs, r.Printable p cs) (first : Bool) :
    EmitsIn pretty (serializeRecords p cs first rs)
      (if first then sepBy (rs.map (recordTokens p cs))
        else (rs.map (recordTokens p cs)).flatMap fun y => .comma :: y) false false := by
  induction rs generalizing first with
  | nil =>
    have hstep : EmitsIn pretty (fun s => if first then .ok s else s.append p (ascii "\n") 1)
        _ _ _ :=
      emitsIn_ite first (fun _ => emitsIn_ok) fun _ => (emitsIn_lineFeed hp).weaken
    refine .of_eq ?_ hstep
    cases first <;> rfl
  | cons r rs ih =>
    have hcs' := hcs (List.cons_ne_nil r rs)
    rw [List.forall_mem_cons] at hrs
    have hunfold : serializeRecords p cs first (r :: rs) = fun s =>
        (if first then .ok s else s.append p (ascii ",\n") 2) >>= fun s =>
          serializeRecord p s cs r >>= serializeRecords p cs false rs := by
      cases first <;> rfl
    rw [hunfold]
    refine .of_eq ?_ <|
      .bind (emitsIn_ite first (fun _ => emitsIn_ok) fun _ => (emitsIn_comma hp).weaken) <|
      .bind (emitsIn_record hp hcs' hrs.1) (ih (fun _ => hcs') hrs.2 false)
    cases first with
    | true => exact (sepBy_cons _ _).symm
    | false => rfl

/-- `json_serialize_table_records`. -/
theorem emitsIn_tableRecords (hp : p.Faithful) {t : Table}
    (hcs : t.records ≠ [] → ∀ c ∈ t.columns, IsKey c.name)
    (hrs : ∀ r ∈ t.records, r.Printable p t.columns) :
    EmitsIn pretty (fun s => jsonSerializeTableRecords p s t) (memberTokens (cstr "records")
      (.arrayStart :: arrayTail (t.records.map (recordTokens p t.columns)))) false false := by
  have hopen : EmitsIn pretty (fun s => s.append p (ascii "\"records\": [\n") 13)
      [.string (cstr "records"), .colon, .arrayStart] false false :=
    emitsIn_lit hp rfl (by decide)
      (fun _ => .token nofun rfl (.token nofun rfl (.token nofun rfl (.done rfl)))) nofun
  unfold jsonSerializeTableRecords
  refine .of_eq ?_ <| .weaken <| .bind (emitsIn_indent hp) <| .bind hopen <|
    .bind (emitsIn_records hp hcs hrs true).deeper <|
    .bind (emitsIn_indent hp).shallower (emitsIn_arrayEnd hp)
  rfl

/-! ### The table -/

/-- The tokens of the object, with or without the records. -/
def tableObjectTokens (p : Platform) (t : Table) (includeData : Bool) : List JsonToken :=
  .objectStart :: (memberTokens (cstr "schema") (.objectStart :: schemaTokens t) ++
    ((if includeData then .comma :: memberTokens (cstr "records")
      (.arrayStart :: arrayTail (t.records.map (recordTokens p t.columns))) else []) ++
        [.objectEnd]))

theorem emitsIn_tableObject (hp : p.Faithful) {t : Table} {includeData : Bool}
    (hdata : includeData = true → (t.records ≠ [] → ∀ c ∈ t.columns, IsKey c.name) ∧
      ∀ r ∈ t.records, r.Printable p t.columns) :
    EmitsIn pretty (fun s => serializeTableObject p s t includeData)
      (tableObjectTokens p t includeData) false false := by
  have hopen : EmitsIn pretty (fun s => s.append p (ascii "\x7b") 1) [.objectStart] false false :=
    emitsIn_lit hp rfl (by decide) (fun _ => .token nofun rfl (.done rfl)) nofun
  cases includeData with
  | true =>
    obtain ⟨hcs, hrs⟩ := hdata rfl
    unfold serializeTableObject
    refine .of_eq ?_ <| .bind hopen <| .bind (emitsIn_schema hp t).deeper <|
      .bind (emitsIn_comma hp).weaken <| .bind (emitsIn_tableRecords hp hcs hrs) <|
      .bind (emitsIn_indent hp).shallower (emitsIn_objectEnd hp)
    rfl
  | false =>
    have hunfold : (fun s => serializeTableObject p s t false) = fun s =>
        s.append p (ascii "\x7b") 1 >>= fun s => jsonSerializeTableSchema p s.deeper t >>= fun s =>
          s.shallower.indent p >>= fun s => s.append p (ascii "\x7d") 1 := rfl
    rw [hunfold]
    refine .of_eq ?_ <| .bind hopen <| .bind (emitsIn_schema hp t).deeper <|
      .bind (emitsIn_indent hp).shallower (emitsIn_objectEnd hp)
    rfl

/-- **The string that is returned** is read as the tokens, whatever the layout. -/
theorem tableToJson_reads (hp : p.Faithful) {t : Table} (options : Option JsonTableOptions)
    (hdata : (options.map (·.includeData)).getD false = true →
      (t.records ≠ [] → ∀ c ∈ t.columns, IsKey c.name) ∧ ∀ r ∈ t.records, r.Printable p t.columns) :
    ∃ text : CString, tableToJson p (some t) options = some text ∧ Reads jsonParseToken .none
      (tableObjectTokens p t ((options.map (·.includeData)).getD false)) text.bytes [] := by
  obtain ⟨s, text, hs, -, hbuffer, hzero, hlex, -⟩ := emitsIn_tableObject hp hdata
    ⟨[], jsonBufferSize, 0, (options.map (·.pretty)).getD true⟩ rfl
  refine ⟨CString.ofBytes text, ?_, ?_⟩
  · rw [tableToJson, if_pos (hp.malloc_eq _)]
    dsimp only at hs ⊢
    rw [hs, Except.toOption, Option.map_some, hbuffer, List.nil_append]
  · rw [CString.bytes_ofBytes hzero]
    exact hlex.alone

end Luminix
