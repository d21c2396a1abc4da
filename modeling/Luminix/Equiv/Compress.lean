import Luminix.Equiv.Lexemes
import Luminix.Equiv.Progress
import Luminix.Json.Compress

/-!
# Minification keeps the tokens

The loop of `json_compress` has its own idea of where a string begins and ends.  On the parts of a
JSON text it agrees with the tokenizer, so that a part and what is left of it have the same tokens,
and the loop is outside of a string behind each part (`Minifies`).
-/

namespace Luminix

open CLib TokenReader

/-! ### The tokens of a text -/

/-- The tokens that are read one after another, up to the end of the text or the first that cannot
be read. -/
def tokensFrom : (fuel : Nat) → List UInt8 → List JsonToken
  | 0, _ => []
  | fuel + 1, l =>
    match jsonParseToken l with
    | (.eof, _) => [.eof]
    | (.none, _) => [.none]
    | (t, l) => t :: tokensFrom fuel l

/-- Each token but the last is at least one character long. -/
def tokens (l : List UInt8) : List JsonToken := tokensFrom (l.length + 1) l

/-- The token is neither the end of the text nor bad. -/
def Proper (t : JsonToken) : Prop := t ≠ .none ∧ t ≠ .eof

theorem tokensFrom_of_proper {t : JsonToken} {l m : List UInt8} (ht : Proper t)
    (h : jsonParseToken l = (t, m)) (fuel : Nat) :
    tokensFrom (fuel + 1) l = t :: tokensFrom fuel m := by
  rw [tokensFrom, h]
  cases t
  case none => exact absurd rfl ht.1
  case eof => exact absurd rfl ht.2
  all_goals rfl

/-- A text that is read to its end has the tokens that are read, and the end. -/
theorem tokensFrom_eq {ts : List JsonToken} (hproper : ∀ t ∈ ts, Proper t) {fuel : Nat}
    {l : List UInt8} (hl : l.length < fuel) (h : Reads jsonParseToken .none ts l []) :
    tokensFrom fuel l = ts ++ [.eof] := by
  induction ts generalizing fuel l with
  | nil =>
    obtain ⟨fuel, rfl⟩ := Nat.exists_eq_succ_of_ne_zero (Nat.ne_zero_of_lt hl)
    cases h with
    | done h => rw [tokensFrom, h]; rfl
  | cons t ts ih =>
    obtain ⟨fuel, rfl⟩ := Nat.exists_eq_succ_of_ne_zero (Nat.ne_zero_of_lt hl)
    have ht := hproper t List.mem_cons_self
    obtain ⟨m, hm, hrest⟩ := h.head ht.1
    have hlength := length_parseToken_lt hm ht.1 ht.2
    rw [tokensFrom_of_proper ht hm, List.cons_append,
      ih (fun t ht => hproper t (List.mem_cons_of_mem _ ht)) (by omega) hrest]

theorem tokens_eq {ts : List JsonToken} (hproper : ∀ t ∈ ts, Proper t) {l : List UInt8}
    (h : Reads jsonParseToken .none ts l []) : tokens l = ts ++ [.eof] :=
  tokensFrom_eq hproper (Nat.lt_succ_self _) h

/-! ### Parts of a text -/

/-- From outside of a string, minification turns `v` into `w` and is outside of a string again; both
have the tokens `ts`. -/
structure Minifies (v w : List UInt8) (ts : List JsonToken) (opened : Bool) : Prop where
  minify : ∀ r, minifyLoop false false (v ++ r) = w ++ minifyLoop false false r
  lexes : Lexes v ts opened
  lexes_minified : Lexes w ts opened
  proper : ∀ t ∈ ts, Proper t

variable {v w v' w' : List UInt8} {ts ts' : List JsonToken} {o o' : Bool}

theorem Minifies.append (h : Minifies v w ts o) (h' : Minifies v' w' ts' o')
    (ho : o = true → Closes v' ∧ Closes w') : Minifies (v ++ v') (w ++ w') (ts ++ ts') o' where
  minify r := by rw [List.append_assoc, h.minify, h'.minify, List.append_assoc]
  lexes := h.lexes.append h'.lexes fun h => (ho h).1
  lexes_minified := h.lexes_minified.append h'.lexes_minified fun h => (ho h).2
  proper t ht := (List.mem_append.mp ht).elim (h.proper t) (h'.proper t)

/-- A part that is open may count as one that is not. -/
theorem Minifies.opened (h : Minifies v w ts false) (o : Bool) : Minifies v w ts o :=
  ⟨h.minify, h.lexes.opened o, h.lexes_minified.opened o, h.proper⟩

/-! ### White space -/

theorem minifyLoop_blank {a : List UInt8} (ha : ∀ c ∈ a, isSpace c = true) (e : Bool)
    (r : List UInt8) : minifyLoop false e (a ++ r) = minifyLoop false e r := by
  induction a with
  | nil => rfl
  | cons c a ih =>
    rw [List.cons_append, minifyLoop, if_pos (ha c List.mem_cons_self)]
    exact ih fun c hc => ha c (List.mem_cons_of_mem _ hc)

/-- White space is left out. -/
theorem minifies_blank {a : List UInt8} (ha : IsJsonBlank a) : Minifies a [] [] false where
  minify r := minifyLoop_blank (isSpace_of_blank ha) false r
  lexes r _ := .done (parseToken_blank (isSpace_of_blank ha) r)
  lexes_minified _ _ := .done rfl
  proper _ ht := absurd ht List.not_mem_nil

/-- White space behind a part does not close it. -/
theorem Minifies.concat_blank (h : Minifies v w ts o) {b : List UInt8} (hb : IsJsonBlank b) :
    Minifies (v ++ b) w ts o where
  minify r := by
    rw [List.append_assoc, h.minify, minifyLoop_blank (isSpace_of_blank hb)]
  lexes := h.lexes.concat_blank (isSpace_of_blank hb)
  lexes_minified := h.lexes_minified
  proper := h.proper

theorem Minifies.blank_append (h : Minifies v w ts o) {a : List UInt8} (ha : IsJsonBlank a) :
    Minifies (a ++ v) w ts o := by
  have happend := (minifies_blank ha).append h (fun h => absurd h Bool.false_ne_true)
  rwa [List.nil_append, List.nil_append] at happend

/-! ### Tokens -/

/-- A character that is a token. -/
theorem minifies_mark {c : UInt8} {t : JsonToken} (ht : Proper t) (hspace : isSpace c = false)
    (hquote : c ≠ 34) (h : ∀ r, jsonParseToken (c :: r) = (t, r)) : Minifies [c] [c] [t] false where
  minify r := by
    rw [List.singleton_append, minifyLoop, hspace, beq_eq_false_iff_ne.mpr hquote]
    rfl
  lexes r _ := .token ht.1 (h r) (.done rfl)
  lexes_minified r _ := .token ht.1 (h r) (.done rfl)
  proper t' ht' := by rwa [List.mem_singleton.mp ht']

/-- A text without white space and quotes is kept. -/
theorem minifyLoop_word {l : List UInt8} (h : ∀ c ∈ l, isSpace c = false ∧ c ≠ 34)
    (r : List UInt8) : minifyLoop false false (l ++ r) = l ++ minifyLoop false false r := by
  induction l with
  | nil => rfl
  | cons c l ih =>
    obtain ⟨hspace, hquote⟩ := h c List.mem_cons_self
    rw [List.cons_append, minifyLoop, hspace, beq_eq_false_iff_ne.mpr hquote,
      ih fun c hc => h c (List.mem_cons_of_mem _ hc)]
    rfl

/-- So is a string: the loop leaves it where the tokenizer does. -/
theorem minifyLoop_string {e : Bool} {l : List UInt8} (h : quotable e l = true) (r : List UInt8) :
    minifyLoop true e (l ++ 34 :: r) = l ++ 34 :: minifyLoop false false r := by
  induction l generalizing e with
  | nil =>
    cases e with
    | true => exact absurd h Bool.false_ne_true
    | false => rfl
  | cons c l ih =>
    cases e with
    | true =>
      rw [quotable] at h
      have hescaped : (c == 92 && !true) = false := Bool.and_false _
      rw [List.cons_append, minifyLoop, hescaped, Bool.true_or, ih h, List.cons_append]
    | false =>
      rw [quotable, Bool.and_eq_true] at h
      rw [List.cons_append, minifyLoop, Bool.false_or, h.1, Bool.not_false, Bool.and_true, ih h.2,
        List.cons_append]

theorem minifies_string {l : List UInt8} (h : quotable false l = true) :
    Minifies (34 :: (l ++ [34])) (34 :: (l ++ [34])) [.string (CString.ofBytes l)] false where
  minify r := by
    rw [List.cons_append, List.append_assoc, minifyLoop]
    have hspace : isSpace 34 = false := rfl
    rw [hspace, List.singleton_append]
    show 34 :: minifyLoop true false (l ++ 34 :: r) = _
    rw [minifyLoop_string h, List.cons_append, List.append_assoc, List.singleton_append]
  lexes := lexes_quoted h
  lexes_minified := lexes_quoted h
  proper t ht := by
    rw [List.mem_singleton.mp ht]
    exact ⟨by simp, by simp⟩

theorem minifies_number {n : List UInt8} (h : JsonNumber n) :
    Minifies n n [.number (CString.ofBytes n)] true := by
  have hlexes : Lexes n [.number (CString.ofBytes n)] true := fun r hr =>
    .token (by simp) (parseToken_jsonNumber h (hr rfl)) (.done rfl)
  refine ⟨minifyLoop_word h.numberText.notSpace, hlexes, hlexes, fun t ht => ?_⟩
  rw [List.mem_singleton.mp ht]
  exact ⟨by simp, by simp⟩

/-- `true`, `false` and `null`. -/
theorem minifies_word {l : List UInt8} (h : l ∈ [ascii "false", ascii "null", ascii "true"]) :
    ∃ t, Minifies l l [t] false := by
  have hnotSpace : ∀ l ∈ [ascii "false", ascii "null", ascii "true"],
      ∀ c ∈ l, isSpace c = false ∧ c ≠ 34 := by
    simp only [← List.forall_iff_forall_mem]
    decide
  have hkeep := minifyLoop_word (hnotSpace l h)
  have hword {t : JsonToken} (ht : Proper t) (hparse : ∀ r, jsonParseToken (l ++ r) = (t, r)) :
      Minifies l l [t] false :=
    ⟨hkeep, fun r _ => .token ht.1 (hparse r) (.done rfl),
      fun r _ => .token ht.1 (hparse r) (.done rfl),
      fun t' ht' => by rwa [List.mem_singleton.mp ht']⟩
  simp only [List.mem_cons, List.not_mem_nil, or_false] at h
  rcases h with rfl | rfl | rfl
  · exact ⟨.boolean false, hword ⟨by simp, by simp⟩ fun r => rfl⟩
  · exact ⟨.null, hword ⟨by simp, by simp⟩ fun r => rfl⟩
  · exact ⟨.boolean true, hword ⟨by simp, by simp⟩ fun r => rfl⟩

/-! ### JSON -/

/-- The structural characters of JSON. -/
theorem minifies_structural {c : UInt8} (h : c ∈ ascii "{}[],:") :
    ∃ t, Minifies [c] [c] [t] false := by
  have hcases : ∀ c ∈ ascii "{}[],:",
      c = 123 ∨ c = 125 ∨ c = 91 ∨ c = 93 ∨ c = 44 ∨ c = 58 :=
    List.forall_iff_forall_mem.mp (by decide)
  rcases hcases c h with rfl | rfl | rfl | rfl | rfl | rfl
  · exact ⟨.objectStart, minifies_mark ⟨by simp, by simp⟩ rfl (by decide) fun _ => rfl⟩
  · exact ⟨.objectEnd, minifies_mark ⟨by simp, by simp⟩ rfl (by decide) fun _ => rfl⟩
  · exact ⟨.arrayStart, minifies_mark ⟨by simp, by simp⟩ rfl (by decide) fun _ => rfl⟩
  · exact ⟨.arrayEnd, minifies_mark ⟨by simp, by simp⟩ rfl (by decide) fun _ => rfl⟩
  · exact ⟨.comma, minifies_mark ⟨by simp, by simp⟩ rfl (by decide) fun _ => rfl⟩
  · exact ⟨.colon, minifies_mark ⟨by simp, by simp⟩ rfl (by decide) fun _ => rfl⟩

/-- `v` is minified to a text with the same tokens. -/
def Minifiable (v : List UInt8) (opened : Bool) : Prop := ∃ w ts, Minifies v w ts opened

theorem Minifiable.append (h : Minifiable v false) (h' : Minifiable v' o) :
    Minifiable (v ++ v') o := by
  obtain ⟨w, ts, h⟩ := h
  obtain ⟨w', ts', h'⟩ := h'
  exact ⟨_, _, h.append h' fun ho => absurd ho Bool.false_ne_true⟩

theorem Minifiable.opened (h : Minifiable v false) : Minifiable v true := by
  obtain ⟨w, ts, h⟩ := h
  exact ⟨w, ts, h.opened true⟩

theorem Minifiable.concat_blank (h : Minifiable v o) {b : List UInt8} (hb : IsJsonBlank b) :
    Minifiable (v ++ b) o := by
  obtain ⟨w, ts, h⟩ := h
  exact ⟨w, ts, h.concat_blank hb⟩

theorem Minifiable.blank_append (h : Minifiable v o) {a : List UInt8} (ha : IsJsonBlank a) :
    Minifiable (a ++ v) o := by
  obtain ⟨w, ts, h⟩ := h
  exact ⟨w, ts, h.blank_append ha⟩

/-- A structural character closes what it stands behind. -/
theorem Minifiable.concat (h : Minifiable v true) {c : UInt8} (hc : c ∈ ascii "{}[],:") :
    Minifiable (v ++ [c]) false := by
  obtain ⟨w, ts, h⟩ := h
  obtain ⟨t, hmark⟩ := minifies_structural hc
  have hnumber : ∀ c ∈ ascii "{}[],:", isNumberByte c = false :=
    List.forall_iff_forall_mem.mp (by decide)
  have hcloses : Closes [c] := by
    refine ⟨List.cons_ne_nil _ _, fun d hd => ?_⟩
    obtain rfl : c = d := Option.some.inj hd
    exact hnumber c hc
  exact ⟨_, _, h.append hmark fun _ => ⟨hcloses, hcloses⟩⟩

theorem Minifiable.cons (h : Minifiable v o) {c : UInt8} (hc : c ∈ ascii "{}[],:") :
    Minifiable (c :: v) o := by
  obtain ⟨t, hmark⟩ := minifies_structural hc
  have hc : Minifiable [c] false := ⟨_, _, hmark⟩
  exact hc.append h

theorem minifiable_blank {a : List UInt8} (ha : IsJsonBlank a) : Minifiable a false :=
  ⟨_, _, minifies_blank ha⟩

theorem minifiable_string {l : List UInt8} (h : JsonChars l) :
    Minifiable (34 :: (l ++ [34])) false :=
  ⟨_, _, minifies_string h.quotable⟩

/-- What is enclosed by structural characters. -/
theorem Minifiable.enclose (h : Minifiable v true) {c d : UInt8} (hc : c ∈ ascii "{}[],:")
    (hd : d ∈ ascii "{}[],:") : Minifiable (c :: (v ++ [d])) true :=
  ((h.concat hd).cons hc).opened

theorem jsonClosed_minifiable : JsonClosed fun v => Minifiable v true where
  word l hl := by
    obtain ⟨t, h⟩ := minifies_word hl
    exact Minifiable.opened ⟨_, _, h⟩
  number l hl := ⟨_, _, minifies_number hl⟩
  string l hl := (minifiable_string hl).opened
  emptyObject a ha := (minifiable_blank ha).opened.enclose (by decide) (by decide)
  object l ih := ih.enclose (by decide) (by decide)
  emptyArray a ha := (minifiable_blank ha).opened.enclose (by decide) (by decide)
  array l ih := ih.enclose (by decide) (by decide)
  member a key b c v d ha hkey hb hc ih hd := by
    have hvalue := ((ih.concat_blank hd).blank_append hc).cons
      (show 58 ∈ ascii "{}[],:" by decide)
    have hmember := (((minifiable_string hkey).concat_blank hb).append hvalue).blank_append ha
    simpa using hmember
  element a v b ha ih hb := (ih.concat_blank hb).blank_append ha
  append l r ihl ihr := by
    have hcomma : (44 : UInt8) ∈ ascii "{}[],:" := by decide
    have happend := (ihl.concat hcomma).append ihr
    rwa [List.append_assoc, List.singleton_append] at happend

theorem JsonDocument.minifiable {l : List UInt8} (h : JsonDocument l) : Minifiable l true := by
  obtain ⟨a, v, b, rfl, ha, hv, hb⟩ := h
  exact jsonClosed_minifiable.element a v b ha (jsonClosed_minifiable.value hv) hb

/-- A JSON text is read to its end. -/
theorem JsonDocument.lexes {l : List UInt8} (h : JsonDocument l) :
    ∃ ts, (∀ t ∈ ts, Proper t) ∧ Lexes l ts true := by
  obtain ⟨w, ts, hminifies⟩ := h.minifiable
  exact ⟨ts, hminifies.proper, hminifies.lexes⟩

/-- What a text is read as on its own. -/
theorem Lexes.tokens_eq {l : List UInt8} {ts : List JsonToken} (h : Lexes l ts true)
    (hproper : ∀ t ∈ ts, Proper t) : tokens l = ts ++ [.eof] :=
  Luminix.tokens_eq hproper h.alone

/-- **Minification keeps the tokens of a JSON text.** -/
theorem tokens_minifyLoop {l : List UInt8} (h : JsonDocument l) :
    tokens (minifyLoop false false l) = tokens l := by
  obtain ⟨w, ts, hminifies⟩ := h.minifiable
  have hminify : minifyLoop false false l = w := by
    have hloop := hminifies.minify []
    rwa [List.append_nil, minifyLoop, List.append_nil] at hloop
  rw [hminify, hminifies.lexes.tokens_eq hminifies.proper,
    hminifies.lexes_minified.tokens_eq hminifies.proper]

theorem minifyLoop_of_tokensFrom {fuel : Nat} {l : List UInt8} (hzero : (0 : UInt8) ∉ l)
    {ts : List JsonToken} (h : tokensFrom fuel l = ts ++ [.eof]) :
    minifyLoop false false l = ts.flatMap JsonToken.text := by
  induction fuel generalizing l ts with
  | zero => exact absurd h.symm (by simp [tokensFrom])
  | succ fuel ih =>
    have hscanned := scanned l
    generalize hres : jsonParseToken l = res at hscanned
    cases hscanned with
    | eof hl =>
      rw [tokensFrom, hres] at h
      obtain rfl : ts = [] := List.append_cancel_right (h.symm.trans (List.nil_append _).symm)
      have hblank := minifyLoop_blank hl false []
      rwa [List.append_nil] at hblank
    | @token a v r t ha hv hl =>
      rw [tokensFrom_of_proper hv.proper hres] at h
      subst hl
      simp only [List.mem_append, not_or] at hzero
      obtain ⟨ts', rfl⟩ : ∃ ts', ts = t :: ts' := by
        cases ts with
        | nil => exact absurd (List.cons.inj h).1 hv.proper.2
        | cons u ts' => exact ⟨ts', by rw [(List.cons.inj h).1]⟩
      have hkeep : minifyLoop false false (v ++ r) = v ++ minifyLoop false false r := by
        cases hv with
        | fixed ht => exact minifyLoop_word (notSpace_of_fixed ht) r
        | number hn => exact minifyLoop_word hn.notSpace r
        | string hbody => exact (minifies_string hbody).minify r
      rw [minifyLoop_blank ha, hkeep, ih hzero.2.2 (List.cons.inj h).2, List.flatMap_cons,
        hv.text_eq hzero.2.1]
    | unclosed | stuck =>
      rw [tokensFrom, hres] at h
      cases ts with
      | nil => cases h
      | cons u ts => exact absurd (List.cons.inj h).2.symm (by simp)

/-- **The tokens of a text are the text** but for white space. -/
theorem minifyLoop_of_tokens {l : List UInt8} (hzero : (0 : UInt8) ∉ l) {ts : List JsonToken}
    (h : tokens l = ts ++ [.eof]) : minifyLoop false false l = ts.flatMap JsonToken.text :=
  minifyLoop_of_tokensFrom hzero h

theorem jsonDocument_emptyArray : JsonDocument (cstr "[]").bytes := by
  have hbytes : (cstr "[]").bytes = 91 :: ([] ++ [93]) := by decide
  rw [hbytes]
  exact ⟨[], _, [], rfl, isJsonBlank_nil, .emptyArray isJsonBlank_nil, isJsonBlank_nil⟩

/-! ### Any text -/

/-- **What has been minified is left as it is.** -/
theorem minifyLoop_minifyLoop (i e : Bool) (l : List UInt8) :
    minifyLoop i e (minifyLoop i e l) = minifyLoop i e l := by
  induction l generalizing i e with
  | nil => cases i <;> rfl
  | cons c l ih =>
    cases i with
    | true => rw [minifyLoop, minifyLoop, ih]
    | false =>
      by_cases hc : isSpace c = true
      · rw [minifyLoop, if_pos hc, ih]
      · rw [minifyLoop, if_neg hc, minifyLoop, if_neg hc, ih]

/-- **Minification keeps the tokens of a JSON text; of any text it makes one that is no longer, and
that is not made shorter once more.** -/
theorem jsonCompress_minify (p : Platform) (s : CString) (level level' : Int)
    (hs : p.malloc (s.length + 1) = true) :
    ∃ t, jsonCompress p (some s) .minify level = some t ∧
      (JsonDocument s.bytes → tokens t.bytes = tokens s.bytes) ∧
      (p.malloc (t.length + 1) = true → jsonCompress p (some t) .minify level' = some t) ∧
      t.length ≤ s.length := by
  refine ⟨minified s, ?_, tokens_minifyLoop, fun ht => ?_, (minifyLoop_sublist _ _ _).length_le⟩
  · rw [jsonCompress, if_pos hs, if_pos rfl]
  · have hidem : minified (minified s) = minified s := by
      ext1
      exact minifyLoop_minifyLoop false false s.bytes
    rw [jsonCompress, if_pos ht, if_pos rfl, hidem]

/-- `[ 1 ]` is one character shorter on either side of the number. -/
theorem jsonCompress_minify_array : ∃ t,
    jsonCompress .epoch (some (cstr "[ 1 ]")) .minify 0 = some t ∧
      tokens t.bytes = tokens (ascii "[ 1 ]") ∧ jsonCompress .epoch (some t) .minify 0 = some t ∧
      t.length ≤ 5 := by
  have hbytes : (cstr "[ 1 ]").bytes = ascii "[ 1 ]" := by decide
  have hblank : ∀ c ∈ ascii " ", c ∈ ascii " \t\n\r" := List.forall_iff_forall_mem.mp (by decide)
  have hdigits : ascii "1" ≠ [] ∧ ∀ c ∈ ascii "1", isDigit c = true :=
    ⟨by decide, List.forall_iff_forall_mem.mp (by decide)⟩
  have hone : JsonNumber (ascii "1") :=
    ⟨[], ascii "1", [], [], by decide, .inl rfl,
      .inr ⟨hdigits, by decide⟩, .inl rfl, .inl rfl⟩
  have harray : JsonValue (ascii "[ 1 ]") := .array (.one hblank (.number hone) hblank)
  have hdocument : JsonDocument (cstr "[ 1 ]").bytes := by
    rw [hbytes]
    exact ⟨[], ascii "[ 1 ]", [], by simp, isJsonBlank_nil, harray, isJsonBlank_nil⟩
  obtain ⟨t, ht, htokens, hagain, hlength⟩ :=
    jsonCompress_minify .epoch (cstr "[ 1 ]") 0 0 rfl
  have htokens := htokens hdocument
  rw [hbytes] at htokens
  exact ⟨t, ht, htokens, hagain rfl, hlength⟩

end Luminix
