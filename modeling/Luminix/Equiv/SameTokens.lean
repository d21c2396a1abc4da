import Luminix.Equiv.Nameless
import Luminix.Equiv.Places
import Luminix.Equiv.PrettyTokens
import Luminix.Json.Tools

/-!
# The loader sees tokens only

`json_parse_token` is all that looks at the text of a file, so two files from which the same tokens
are read are the same database (`load_of_sameTokens`), whether they are JSON or not.  So a file that
`json_compress` or `json_pretty_print` has rewritten is loaded as before (`load_reformatted`), and
the type that `json_get_type` tells is the one of its value as before (`type_of_document`).
-/

namespace Luminix

open CLib TokenReader

/-- The same tokens are read from both texts. -/
abbrev SameTokens (l l' : List UInt8) : Prop := Alike jsonParseToken l l'

variable {p : Platform} {s t : CString} {l l' r : List UInt8} {ts : List JsonToken} {counter : Int}
  {indent level : Int}

/-- **What begins one text begins the other.** -/
theorem Spans.of_sameTokens (hspan : Spans ts l r) (h : SameTokens l l') :
    ∃ r', Spans ts l' r' ∧ SameTokens r r' := by
  induction ts generalizing l l' with
  | nil =>
    obtain rfl := spans_nil.mp hspan
    exact ⟨l', rfl, h⟩
  | cons t ts ih =>
    obtain ⟨m, hm, hrest⟩ := hspan
    obtain ⟨u, n, n', hn, hn', halike⟩ := h.exists_scan
    obtain ⟨rfl, rfl⟩ := Prod.mk.inj (hm.symm.trans hn)
    obtain ⟨r', hspan', hr'⟩ := ih hrest halike
    exact ⟨r', ⟨n', hn', hspan'⟩, hr'⟩

theorem tokensFrom_eq_cons {fuel : Nat} {t : JsonToken} (h : tokensFrom fuel l = t :: ts) :
    ∃ k m, jsonParseToken l = (t, m) ∧ (ts ≠ [] → tokensFrom k m = ts) := by
  cases fuel with
  | zero => cases h
  | succ fuel =>
    generalize hu : jsonParseToken l = r
    rw [tokensFrom, hu] at h
    obtain ⟨u, m⟩ := r
    cases u
    case eof | none =>
      obtain ⟨rfl, rfl⟩ := List.cons.inj h
      exact ⟨fuel, m, rfl, fun hne => absurd rfl hne⟩
    all_goals
      obtain ⟨rfl, rfl⟩ := List.cons.inj h
      exact ⟨fuel, m, rfl, fun _ => rfl⟩

/-- Texts with the same tokens, up to their end, are alike. -/
theorem sameTokens_of_tokensFrom {fuel fuel' : Nat} (h : tokensFrom fuel l = ts ++ [.eof])
    (h' : tokensFrom fuel' l' = ts ++ [.eof]) : SameTokens l l' := by
  induction ts generalizing fuel fuel' l l' with
  | nil =>
    -- behind the end of a text nothing is left
    have hend {l m : List UInt8} (hm : jsonParseToken l = (.eof, m)) :
        jsonParseToken l = (.eof, []) := by
      have hblank := (parseToken_eof_iff l).mp (congrArg Prod.fst hm)
      have hparse := parseToken_blank hblank []
      rwa [List.append_nil] at hparse
    obtain ⟨k, m, hm, -⟩ := tokensFrom_eq_cons h
    obtain ⟨k', m', hm', -⟩ := tokensFrom_eq_cons h'
    exact alike_of_scan_eq ((hend hm).trans (hend hm').symm)
  | cons t ts ih =>
    obtain ⟨k, m, hm, hrest⟩ := tokensFrom_eq_cons h
    obtain ⟨k', m', hm', hrest'⟩ := tokensFrom_eq_cons h'
    have hne : ts ++ [.eof] ≠ [] := by simp
    exact alike_of_scan hm hm' (ih (hrest hne) (hrest' hne))

/-- **A JSON text and one with its tokens** are alike. -/
theorem JsonDocument.sameTokens (h : JsonDocument l) (htokens : tokens l' = tokens l) :
    SameTokens l' l := by
  obtain ⟨ts, hproper, hlexes⟩ := h.lexes
  have hl := hlexes.tokens_eq hproper
  exact sameTokens_of_tokensFrom (htokens.trans hl) hl

/-! ### Loading -/

/-- Files with the same tokens are the same database, or both are none. -/
theorem SameTokens.load (h : SameTokens l l') (hmalloc : p.malloc (l.length + 1) = true)
    (hmalloc' : p.malloc (l'.length + 1) = true) :
    dbLoadFromFile p counter (some l) = dbLoadFromFile p counter (some l') := by
  have hload {l l' : List UInt8} (h : SameTokens l l') (hmalloc' : p.malloc (l'.length + 1) = true)
      {s : Store} (hs : dbLoadFromFile p counter (some l) = some (some s)) :
      dbLoadFromFile p counter (some l') = some (some s) := by
    obtain ⟨-, ts, r, hdocument, hspan⟩ := load_iff.mp hs
    obtain ⟨r', hspan', -⟩ := hspan.of_sameTokens h
    exact load_iff.mpr ⟨hmalloc', ts, r', hdocument, hspan'⟩
  obtain ⟨result, hresult⟩ := Option.ne_none_iff_exists'.mp
    (dbLoadFromFile_ne_none p counter (some l))
  obtain ⟨result', hresult'⟩ := Option.ne_none_iff_exists'.mp
    (dbLoadFromFile_ne_none p counter (some l'))
  cases result with
  | some s => rw [hresult, hload h hmalloc' hresult]
  | none =>
    cases result' with
    | none => rw [hresult, hresult']
    | some s =>
      have hs := hload h.symm hmalloc hresult'
      rw [hresult] at hs
      cases Option.some.inj hs

/-- If one ends the program, the other does. -/
theorem SameTokens.crashes (h : SameTokens l l') (hmalloc' : p.malloc (l'.length + 1) = true)
    (hcrash : loadCrashes p counter (some l) = true) :
    loadCrashes p counter (some l') = true := by
  obtain ⟨-, ts, r, hdocument, hspan⟩ := loadCrashes_iff.mp hcrash
  obtain ⟨r', hspan', -⟩ := hspan.of_sameTokens h
  exact loadCrashes_iff.mpr ⟨hmalloc', ts, r', hdocument, hspan'⟩

theorem SameTokens.loadCrashes_eq (h : SameTokens l l') (hmalloc : p.malloc (l.length + 1) = true)
    (hmalloc' : p.malloc (l'.length + 1) = true) :
    loadCrashes p counter (some l) = loadCrashes p counter (some l') :=
  Bool.eq_iff_iff.mpr ⟨h.crashes hmalloc', SameTokens.crashes h.symm hmalloc⟩

/-- **Files with the same tokens are the same database**, or neither is one, and both end the program
or neither does. -/
theorem load_of_sameTokens (h : SameTokens l l') (hmalloc : p.malloc (l.length + 1) = true)
    (hmalloc' : p.malloc (l'.length + 1) = true) :
    dbLoadFromFile p counter (some l) = dbLoadFromFile p counter (some l') ∧
      loadCrashes p counter (some l) = loadCrashes p counter (some l') :=
  ⟨h.load hmalloc hmalloc', h.loadCrashes_eq hmalloc hmalloc'⟩

/-- White space in front of a token, also of one that cannot be read. -/
theorem load_of_sameTokens_blank :
    dbLoadFromFile .epoch 1000 (some (ascii "\x7b \x7d x")) =
        dbLoadFromFile .epoch 1000 (some (ascii "\x7b\x7dx")) ∧
      loadCrashes .epoch 1000 (some (ascii "\x7b \x7d x")) =
        loadCrashes .epoch 1000 (some (ascii "\x7b\x7dx")) := by
  have hx : jsonParseToken (ascii " x") = jsonParseToken (ascii "x") := by decide
  have hend : SameTokens (ascii " \x7d x") (ascii "\x7dx") :=
    alike_of_scan (t := .objectEnd) rfl rfl (alike_of_scan_eq hx)
  exact load_of_sameTokens (alike_of_scan (t := .objectStart) rfl rfl hend) rfl rfl

/-- A text that has been rewritten has the same tokens. -/
theorem tokens_reformatted (hs : JsonDocument s.bytes) (hmalloc : p.malloc (s.length + 1) = true)
    (h : jsonCompress p (some s) .minify level = some t ∨
      jsonPrettyPrint p (some s) indent = .ok (some t) ∧
        (printed indent .start (s.bytes.rdropWhile isSpace)).length < s.length * 2) :
    tokens t.bytes = tokens s.bytes := by
  rcases h with hcompress | ⟨hpretty, hfits⟩
  · rw [jsonCompress, if_pos hmalloc, if_pos rfl] at hcompress
    obtain rfl := Option.some.inj hcompress
    exact tokens_minifyLoop hs
  · -- the text is printed, or copied where there is no buffer or nothing to indent
    rw [jsonPrettyPrint, jsonStrdup, if_pos hmalloc] at hpretty
    dsimp only at hpretty
    split_ifs at hpretty with hprint hwrites
    · obtain rfl := Option.some.inj (Except.ok.inj hpretty)
      obtain ⟨q, d, b, hsplit, hdrop, hdocument, -, -, hb⟩ := hs.parts
      rw [hdrop] at hfits
      rw [bytes_prettyText]
      exact (prettyText_of_fits hsplit hdocument hb hfits).2
    · obtain rfl := Option.some.inj (Except.ok.inj hpretty)
      rfl

/-- **A file that has been rewritten is loaded as before**: minified at any level, or printed with
any indentation for which the printed text, but for white space at its end, is shorter than the
buffer. -/
theorem load_reformatted (p : Platform) (counter : Int) {s t : CString} (hs : JsonDocument s.bytes)
    (hmalloc : p.malloc (s.length + 1) = true) (hmalloc' : p.malloc (t.length + 1) = true)
    (level indent : Int)
    (h : jsonCompress p (some s) .minify level = some t ∨
      jsonPrettyPrint p (some s) indent = .ok (some t) ∧
        (printed indent .start (s.bytes.rdropWhile isSpace)).length < s.length * 2) :
    dbLoadFromFile p counter (some t.bytes) = dbLoadFromFile p counter (some s.bytes) ∧
      loadCrashes p counter (some t.bytes) = loadCrashes p counter (some s.bytes) :=
  have hsame := hs.sameTokens (tokens_reformatted hs hmalloc h)
  ⟨hsame.load hmalloc' hmalloc, hsame.loadCrashes_eq hmalloc' hmalloc⟩

/-- An object without the white space around its tokens. -/
theorem load_reformatted_note :
    dbLoadFromFile .epoch 1000 (some (cstr "\x7b\"note\":[\"x, y\"]\x7d").bytes) =
        dbLoadFromFile .epoch 1000 (some (cstr "\x7b \"note\" : [ \"x, y\" ] \x7d").bytes) ∧
      loadCrashes .epoch 1000 (some (cstr "\x7b\"note\":[\"x, y\"]\x7d").bytes) =
        loadCrashes .epoch 1000 (some (cstr "\x7b \"note\" : [ \"x, y\" ] \x7d").bytes) := by
  have hblank : IsJsonBlank [32] := List.forall_iff_forall_mem.mp (by decide)
  have hnote : JsonChars (ascii "note") := @jsonChars_of_chars "note".toList (by decide)
  have hvalue : JsonChars (ascii "x, y") := @jsonChars_of_chars "x, y".toList (by decide)
  have hspelled : Spelled [.objectStart, .string (cstr "note"), .colon, .arrayStart,
      .string (cstr "x, y"), .arrayEnd, .objectEnd]
      (cstr "\x7b \"note\" : [ \"x, y\" ] \x7d").bytes [] :=
    .cons (a := []) isJsonBlank_nil .objectStart <| .cons hblank (.string hnote) <|
      .cons hblank .colon <| .cons hblank .arrayStart <| .cons hblank (.string hvalue) <|
      .cons hblank .arrayEnd <| .cons hblank .objectEnd .nil
  have hdocument : JsonDocument (cstr "\x7b \"note\" : [ \"x, y\" ] \x7d").bytes :=
    ((Completes.done isJsonBlank_nil).jsonText hspelled rfl).document
  have hminified : jsonCompress .epoch (some (cstr "\x7b \"note\" : [ \"x, y\" ] \x7d")) .minify 0 =
      some (cstr "\x7b\"note\":[\"x, y\"]\x7d") := by decide
  exact load_reformatted .epoch 1000 hdocument rfl rfl 0 2 (.inl hminified)

/-! ### Types -/

/-- The values of JSON, with the names of their types. -/
inductive HasTypeName : CString → List UInt8 → Prop
  | object {v : List UInt8} (h : JsonObject v) : HasTypeName (cstr "object") v
  | emptyArray {a : List UInt8} (ha : IsJsonBlank a) :
    HasTypeName (cstr "array") (91 :: (a ++ [93]))
  | array {l : List UInt8} (h : JsonElements l) : HasTypeName (cstr "array") (91 :: (l ++ [93]))
  | string {l : List UInt8} (h : JsonChars l) : HasTypeName (cstr "string") (34 :: (l ++ [34]))
  | number {l : List UInt8} (h : JsonNumber l) : HasTypeName (cstr "number") l
  | false : HasTypeName (cstr "boolean") (ascii "false")
  | true : HasTypeName (cstr "boolean") (ascii "true")
  | null : HasTypeName (cstr "null") (ascii "null")

theorem JsonValue.exists_typeName {v : List UInt8} (hv : JsonValue v) :
    ∃ name, HasTypeName name v := by
  cases hv with
  | word h =>
    simp only [List.mem_cons, List.not_mem_nil, or_false] at h
    rcases h with rfl | rfl | rfl
    · exact ⟨_, .false⟩
    · exact ⟨_, .null⟩
    · exact ⟨_, .true⟩
  | number h => exact ⟨_, .number h⟩
  | string h => exact ⟨_, .string h⟩
  | object h => exact ⟨_, .object h⟩
  | emptyArray ha => exact ⟨_, .emptyArray ha⟩
  | array h => exact ⟨_, .array h⟩

/-- The first token tells the type. -/
theorem HasTypeName.typeName_eq {name : CString} {v : List UInt8} (h : HasTypeName name v)
    (hr : EndsNumber r) : (jsonParseToken (v ++ r)).1.typeName = name := by
  cases h with
  | object h => cases h <;> rfl
  | emptyArray ha => rfl
  | array h => rfl
  | @string l h =>
    have hquoted : 34 :: (l ++ [34]) ++ r = 34 :: (l ++ 34 :: r) := by simp
    rw [hquoted, parseToken_quoted h.quotable r]
    rfl
  | number h =>
    rw [parseToken_jsonNumber h hr]
    rfl
  | false => rfl
  | true => rfl
  | null => rfl

/-- **The type of a text** is that of its value, and stays the same if the text is rewritten. -/
theorem type_of_document (hmalloc : ∀ n, p.malloc n = true) {s : CString}
    (hs : JsonDocument s.bytes) : ∃ a v b name, s.bytes = a ++ (v ++ b) ∧ IsJsonBlank a ∧
      IsJsonBlank b ∧ HasTypeName name v ∧ jsonGetType p (some s) = some name ∧
      ∀ level indent t, jsonCompress p (some s) .minify level = some t ∨
        jsonPrettyPrint p (some s) indent = .ok (some t) ∧
          (printed indent .start (s.bytes.rdropWhile isSpace)).length < s.length * 2 →
        jsonGetType p (some t) = some name := by
  obtain ⟨a, v, b, hsplit, ha, hv, hb⟩ := id hs
  obtain ⟨name, hname⟩ := hv.exists_typeName
  have hnil : EndsNumber [] := fun c hc => by cases hc
  have hend := endsNumber_blank (isSpace_of_blank hb) hnil
  rw [List.append_nil] at hend
  have hfirst : (jsonParseToken s.bytes).1.typeName = name := by
    rw [hsplit, parseToken_blank (isSpace_of_blank ha), hname.typeName_eq hend]
  have htype : jsonGetType p (some s) = some name := by
    rw [jsonGetType, hfirst, jsonStrdup, if_pos (hmalloc _)]
  refine ⟨a, v, b, name, hsplit, ha, hb, hname, htype, fun level indent t h => ?_⟩
  have hsame : SameTokens t.bytes s.bytes := hs.sameTokens (tokens_reformatted hs (hmalloc _) h)
  have htoken : (jsonParseToken t.bytes).1 = (jsonParseToken s.bytes).1 := hsame 0
  rw [jsonGetType, htoken, hfirst, jsonStrdup, if_pos (hmalloc _)]

/-- A word, with a blank behind it. -/
theorem type_of_document_word : ∃ a v b name, (cstr "null ").bytes = a ++ (v ++ b) ∧
    IsJsonBlank a ∧ IsJsonBlank b ∧ HasTypeName name v ∧
    jsonGetType .epoch (some (cstr "null ")) = some name ∧
    ∀ level indent t, jsonCompress .epoch (some (cstr "null ")) .minify level = some t ∨
      jsonPrettyPrint .epoch (some (cstr "null ")) indent = .ok (some t) ∧
        (printed indent .start ((cstr "null ").bytes.rdropWhile isSpace)).length <
          (cstr "null ").length * 2 →
      jsonGetType .epoch (some t) = some name := by
  have hbytes : (cstr "null ").bytes = [] ++ (ascii "null" ++ [32]) := by decide
  have hblank : IsJsonBlank [32] := List.forall_iff_forall_mem.mp (by decide)
  exact type_of_document (fun _ => rfl)
    ⟨[], ascii "null", [32], hbytes, isJsonBlank_nil, .word (by decide), hblank⟩

end Luminix
