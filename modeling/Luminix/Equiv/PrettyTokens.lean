import Luminix.Equiv.Places
import Luminix.Equiv.Pretty
import Mathlib.Data.List.DropRight

/-!
# Pretty printing and tokens

Without a bound the printed text of a JSON text is a JSON text (`JsonDocument.printed`), and but for
white space it is the same text.  So `json_pretty_print` keeps the tokens exactly if all of the text
fits in the buffer (`pretty_keeps_tokens_iff`): where the loop stops early, something is missing that
is no white space.
-/

namespace Luminix

open CLib TokenReader PrettyMode

/-! ### Blanks -/

section

variable {a b l : List UInt8}

theorem IsJsonBlank.append (ha : IsJsonBlank a) (hb : IsJsonBlank b) : IsJsonBlank (a ++ b) :=
  fun c hc => (List.mem_append.mp hc).elim (ha c) (hb c)

theorem isJsonBlank_lineBreak (indent level : Int) : IsJsonBlank (lineBreak indent level) := by
  have hblanks : (10 : UInt8) ∈ ascii " \t\n\r" ∧ (32 : UInt8) ∈ ascii " \t\n\r" := by
    decide
  intro c hc
  rcases List.mem_cons.mp hc with rfl | hc
  · exact hblanks.1
  · rw [List.eq_of_mem_replicate hc]
    exact hblanks.2

theorem JsonMember.around (h : JsonMember l) (ha : IsJsonBlank a) (hb : IsJsonBlank b) :
    JsonMember (a ++ (l ++ b)) := by
  cases h with
  | @member a' key b' c v d ha' hkey hb' hc hv hd =>
    have hmember := JsonMember.member (ha.append ha') hkey hb' hc hv (hd.append hb)
    simpa using hmember

theorem JsonMembers.blank_append (h : JsonMembers l) (ha : IsJsonBlank a) :
    JsonMembers (a ++ l) := by
  cases h with
  | one hm =>
    have hmember := hm.around ha isJsonBlank_nil
    rw [List.append_nil] at hmember
    exact .one hmember
  | more hm hrest =>
    have hmember := hm.around ha isJsonBlank_nil
    rw [List.append_nil] at hmember
    rw [← List.append_assoc]
    exact .more hmember hrest

theorem JsonMembers.concat_blank (h : JsonMembers l) (hb : IsJsonBlank b) :
    JsonMembers (l ++ b) := by
  induction h using JsonMembers.induct with
  | one hm => exact .one (hm.around isJsonBlank_nil hb)
  | more hm _ ih =>
    rw [List.append_assoc, List.cons_append]
    exact .more hm ih

theorem JsonElements.blank_append (h : JsonElements l) (ha : IsJsonBlank a) :
    JsonElements (a ++ l) := by
  cases h with
  | one ha' hv hb =>
    rw [← List.append_assoc]
    exact .one (ha.append ha') hv hb
  | more ha' hv hb hrest =>
    rw [← List.append_assoc]
    exact .more (ha.append ha') hv hb hrest

theorem JsonElements.concat_blank (h : JsonElements l) (hb : IsJsonBlank b) :
    JsonElements (l ++ b) := by
  induction h using JsonElements.induct with
  | one ha hv hb' =>
    rw [List.append_assoc, List.append_assoc]
    exact .one ha hv (hb'.append hb)
  | more ha hv hb' _ ih =>
    simp only [List.append_assoc, List.cons_append]
    exact .more ha hv hb' ih

end

/-! ### What is printed for a part of a text -/

/-- From outside of strings, `v` is printed as `w`, and behind it the loop is where it was. -/
structure Prints (indent level : Int) (v w : List UInt8) : Prop where
  printed_eq : printed indent ⟨level, false, false⟩ v = w
  after_eq : (PrettyMode.mk level false false).after v = ⟨level, false, false⟩

theorem PrettyMode.after_append (m : PrettyMode) (l r : List UInt8) :
    m.after (l ++ r) = (m.after l).after r := List.foldl_append

section

variable {indent level : Int} {v w v' w' l : List UInt8}

theorem Prints.append (h : Prints indent level v w) (h' : Prints indent level v' w') :
    Prints indent level (v ++ v') (w ++ w') where
  printed_eq := by rw [printed_append, h.printed_eq, h.after_eq, h'.printed_eq]
  after_eq := by rw [after_append, h.after_eq, h'.after_eq]

/-- A character that is printed as it is. -/
def isUnmarked (c : UInt8) : Bool := !(ascii "\x7b\x7d[],:\"").contains c

theorem ne_of_isUnmarked {c : UInt8} (h : isUnmarked c = true) :
    c ≠ 123 ∧ c ≠ 91 ∧ c ≠ 125 ∧ c ≠ 93 ∧ c ≠ 44 ∧ c ≠ 58 ∧ c ≠ 34 := by
  refine ⟨?_, ?_, ?_, ?_, ?_, ?_, ?_⟩ <;>
    (rintro rfl; exact absurd h (by decide))

theorem next_of_isUnmarked {c : UInt8} (h : isUnmarked c = true) :
    next ⟨level, false, false⟩ c = ⟨level, false, false⟩ := by
  obtain ⟨h1, h2, h3, h4, -, -, h7⟩ := ne_of_isUnmarked h
  simp [next, h1, h2, h3, h4, h7]

theorem piece_of_isUnmarked {c : UInt8} (h : isUnmarked c = true) :
    piece indent ⟨level, false, false⟩ c = [c] := by
  obtain ⟨h1, h2, h3, h4, h5, h6, -⟩ := ne_of_isUnmarked h
  simp [piece, h1, h2, h3, h4, h5, h6]

theorem prints_unmarked (h : ∀ c ∈ l, isUnmarked c = true) : Prints indent level l l := by
  induction l with
  | nil => exact ⟨rfl, rfl⟩
  | cons c l ih =>
    have hc := h c List.mem_cons_self
    have hl := ih fun c hc => h c (List.mem_cons_of_mem _ hc)
    constructor
    · rw [printed, next_of_isUnmarked hc, piece_of_isUnmarked hc, hl.printed_eq]
      rfl
    · rw [after, List.foldl_cons, next_of_isUnmarked hc]
      exact hl.after_eq

theorem isUnmarked_of_blank (h : IsJsonBlank l) : ∀ c ∈ l, isUnmarked c = true := by
  have hall : ∀ c ∈ ascii " \t\n\r", isUnmarked c = true :=
    List.forall_iff_forall_mem.mp (by decide)
  exact fun c hc => hall c (h c hc)

theorem prints_blank (h : IsJsonBlank l) : Prints indent level l l :=
  prints_unmarked (isUnmarked_of_blank h)

/-- A string is left where the tokenizer leaves it. -/
theorem printed_string {e : Bool} (h : quotable e l = true) :
    printed indent ⟨level, true, e⟩ (l ++ [34]) = l ++ [34] ∧
      (PrettyMode.mk level true e).after (l ++ [34]) = ⟨level, false, false⟩ := by
  induction l generalizing e with
  | nil =>
    cases e with
    | true => exact absurd h Bool.false_ne_true
    | false => exact ⟨rfl, rfl⟩
  | cons c l ih =>
    have hnext : next ⟨level, true, e⟩ c = ⟨level, true, c == 92 && !e⟩ := by
      cases e with
      | true => rfl
      | false =>
        rw [quotable, Bool.and_eq_true] at h
        simp [next, h.1]
    have hrest : quotable (c == 92 && !e) l = true := by
      cases e with
      | true => rwa [Bool.not_true, Bool.and_false]
      | false =>
        rw [quotable, Bool.and_eq_true] at h
        rw [Bool.not_false, Bool.and_true]
        exact h.2
    obtain ⟨hprinted, hafter⟩ := ih hrest
    constructor
    · rw [List.cons_append, printed, hnext, hprinted]
      rfl
    · rw [List.cons_append, after, List.foldl_cons, hnext]
      exact hafter

theorem prints_quoted (h : quotable false l = true) :
    Prints indent level (34 :: (l ++ [34])) (34 :: (l ++ [34])) where
  printed_eq := congrArg (34 :: ·) (printed_string h).1
  after_eq := (@printed_string indent level l false h).2

theorem prints_comma : Prints indent level [44] (44 :: lineBreak indent level) where
  printed_eq := List.append_nil _
  after_eq := rfl

theorem prints_colon : Prints indent level [58] [58, 32] where
  printed_eq := rfl
  after_eq := rfl

/-- What is enclosed by brackets or braces. -/
theorem prints_enclosed {o c : UInt8} (ho : o = 123 ∨ o = 91) (hc : c = 125 ∨ c = 93)
    (h : Prints indent (level + 1) l w) :
    Prints indent level (o :: (l ++ [c]))
      (o :: (lineBreak indent (level + 1) ++ (w ++ lineBreak indent level) ++ [c])) := by
  have hlevel : level + 1 - 1 = level := by omega
  have hopen : next ⟨level, false, false⟩ o = ⟨level + 1, false, false⟩ ∧
      piece indent ⟨level, false, false⟩ o = o :: lineBreak indent (level + 1) := by
    rcases ho with rfl | rfl <;> exact ⟨rfl, rfl⟩
  have hclose : next ⟨level + 1, false, false⟩ c = ⟨level, false, false⟩ ∧
      piece indent ⟨level + 1, false, false⟩ c = lineBreak indent level ++ [c] := by
    rcases hc with rfl | rfl <;> simp [next, piece, hlevel]
  constructor
  · rw [printed, hopen.1, hopen.2, printed_append, h.printed_eq, h.after_eq, printed, hclose.2]
    simp [printed]
  · rw [after, List.foldl_cons, hopen.1, List.foldl_append, List.foldl_cons]
    have hafter := h.after_eq
    rw [after] at hafter
    rw [hafter, hclose.1]
    rfl

end

/-! ### JSON -/

/-- The characters of a number are printed as they are. -/
theorem NumberText.isUnmarked {n : List UInt8} (h : NumberText n) :
    ∀ c ∈ n, isUnmarked c = true := by
  have hmark : ∀ c ∈ ascii "-+.eE", Luminix.isUnmarked c = true :=
    List.forall_iff_forall_mem.mp (by decide)
  have hmarks : ∀ c ∈ ascii "\x7b\x7d[],:\"", isDigit c = false :=
    List.forall_iff_forall_mem.mp (by decide)
  have hdigit (c : UInt8) (hc : isDigit c = true) : Luminix.isUnmarked c = true := by
    rw [Luminix.isUnmarked, Bool.not_eq_true', List.contains_eq_mem, decide_eq_false_iff_not]
    intro hmem
    rw [hmarks c hmem] at hc
    cases hc
  intro c hc
  exact (h.mem hc).elim (hdigit c) (hmark c)

section

variable {indent level : Int} {a b c d key v w m l : List UInt8}

theorem prints_member (ha : IsJsonBlank a) (hkey : JsonChars key) (hb : IsJsonBlank b)
    (hc : IsJsonBlank c) (hd : IsJsonBlank d) (hw : JsonValue w) (h : Prints indent level v w) :
    ∃ m, JsonMember m ∧
      Prints indent level (a ++ (34 :: (key ++ 34 :: (b ++ 58 :: (c ++ (v ++ d)))))) m := by
  have hspace : (32 : UInt8) ∈ ascii " \t\n\r" := by decide
  have hblank : IsJsonBlank (32 :: c) := List.forall_mem_cons.mpr ⟨hspace, hc⟩
  have hrest := prints_colon.append ((prints_blank hc).append (h.append (prints_blank hd)))
  have hall := (prints_blank ha).append ((prints_quoted hkey.quotable).append
    ((prints_blank hb).append hrest))
  refine ⟨_, .member ha hkey hb hblank hw hd, ?_⟩
  simpa using hall

end

/-- **A value is printed as a value.** -/
theorem JsonValue.prints (indent : Int) {v : List UInt8} (hv : JsonValue v) (level : Int) :
    ∃ w, JsonValue w ∧ Prints indent level v w := by
  -- one motive for each of the five mutual predicates, at every level of indentation
  refine @JsonValue.rec (fun l _ => ∀ level, ∃ w, JsonValue w ∧ Prints indent level l w)
    (fun l _ => ∀ level, ∃ w, JsonObject w ∧ Prints indent level l w)
    (fun l _ => ∀ level, ∃ w, JsonMember w ∧ Prints indent level l w)
    (fun l _ => ∀ level, ∃ w, JsonMembers w ∧ Prints indent level l w)
    (fun l _ => ∀ level, ∃ w, JsonElements w ∧ Prints indent level l w)
    ?word ?number ?string ?object ?emptyArray ?array ?empty ?members ?member ?oneMember ?moreMembers
    ?oneElement ?moreElements v hv level
  case word =>
    intro l h level
    have hall : ∀ l ∈ [ascii "false", ascii "null", ascii "true"],
        ∀ c ∈ l, isUnmarked c = true := by
      simp only [← List.forall_iff_forall_mem]
      decide
    exact ⟨l, .word h, prints_unmarked (hall l h)⟩
  case number =>
    exact fun {l} h level => ⟨l, .number h, prints_unmarked h.numberText.isUnmarked⟩
  case string => exact fun h level => ⟨_, .string h, prints_quoted h.quotable⟩
  case object =>
    intro l _ h level
    obtain ⟨w, hw, hprints⟩ := h level
    exact ⟨w, .object hw, hprints⟩
  case emptyArray =>
    intro a ha level
    have hblank := (isJsonBlank_lineBreak indent (level + 1)).append
      (ha.append (isJsonBlank_lineBreak indent level))
    exact ⟨_, .emptyArray hblank, prints_enclosed (.inr rfl) (.inr rfl) (prints_blank ha)⟩
  case array =>
    intro l _ h level
    obtain ⟨w, hw, hprints⟩ := h (level + 1)
    have helements := (hw.concat_blank (isJsonBlank_lineBreak indent level)).blank_append
      (isJsonBlank_lineBreak indent (level + 1))
    exact ⟨_, .array helements, prints_enclosed (.inr rfl) (.inr rfl) hprints⟩
  case empty =>
    intro a ha level
    have hblank := (isJsonBlank_lineBreak indent (level + 1)).append
      (ha.append (isJsonBlank_lineBreak indent level))
    exact ⟨_, .empty hblank, prints_enclosed (.inl rfl) (.inl rfl) (prints_blank ha)⟩
  case members =>
    intro l _ h level
    obtain ⟨w, hw, hprints⟩ := h (level + 1)
    have hmembers := (hw.concat_blank (isJsonBlank_lineBreak indent level)).blank_append
      (isJsonBlank_lineBreak indent (level + 1))
    exact ⟨_, .members hmembers, prints_enclosed (.inl rfl) (.inl rfl) hprints⟩
  case member =>
    intro a key b c v d ha hkey hb hc _ hd h level
    obtain ⟨w, hw, hprints⟩ := h level
    exact prints_member ha hkey hb hc hd hw hprints
  case oneMember =>
    intro m _ h level
    obtain ⟨w, hw, hprints⟩ := h level
    exact ⟨w, .one hw, hprints⟩
  case moreMembers =>
    intro m l _ _ h hrest level
    obtain ⟨w, hw, hprints⟩ := h level
    obtain ⟨w', hw', hprints'⟩ := hrest level
    exact ⟨_, .more hw (hw'.blank_append (isJsonBlank_lineBreak indent level)),
      hprints.append (prints_comma.append hprints')⟩
  case oneElement =>
    intro a v b ha _ hb h level
    obtain ⟨w, hw, hprints⟩ := h level
    exact ⟨_, .one ha hw hb, (prints_blank ha).append (hprints.append (prints_blank hb))⟩
  case moreElements =>
    intro a v b l ha _ hb _ h hrest level
    obtain ⟨w, hw, hprints⟩ := h level
    obtain ⟨w', hw', hprints'⟩ := hrest level
    -- behind a comma stands the line break of the level
    have hline := hw'.blank_append (isJsonBlank_lineBreak indent level)
    exact ⟨_, .more ha hw hb hline, (prints_blank ha).append (hprints.append
      ((prints_blank hb).append (prints_comma.append hprints')))⟩

/-! ### White space aside -/

/-- What minification keeps of a character. -/
def kept (m : PrettyMode) (c : UInt8) : List UInt8 :=
  if m.inString = false ∧ isSpace c = true then [] else [c]

/-- Outside of strings only a quote changes the flags. -/
theorem next_outside (level : Int) (e : Bool) (c : UInt8) :
    (next ⟨level, false, e⟩ c).inString = (c == 34) ∧ (next ⟨level, false, e⟩ c).escaped = e := by
  have hmark : c = 123 ∨ c = 91 ∨ c = 125 ∨ c = 93 → (c == 34) = false := by
    rintro (rfl | rfl | rfl | rfl) <;> rfl
  rw [next, if_neg Bool.false_ne_true]
  split_ifs with hopen hclose
  · exact ⟨(hmark (hopen.imp_right .inl)).symm, rfl⟩
  · exact ⟨(hmark (.inr (.inr hclose))).symm, rfl⟩
  · exact ⟨rfl, rfl⟩

theorem minifyLoop_cons (m : PrettyMode) (c : UInt8) (r : List UInt8) :
    minifyLoop m.inString m.escaped (c :: r) =
      kept m c ++ minifyLoop (m.next c).inString (m.next c).escaped r := by
  obtain ⟨level, i, e⟩ := m
  cases i with
  | true => rfl
  | false =>
    obtain ⟨hstring, hescaped⟩ := next_outside level e c
    rw [hstring, hescaped, minifyLoop, kept]
    by_cases hspace : isSpace c = true
    · have hquote : (c == 34) = false := by
        rw [beq_eq_false_iff_ne]
        rintro rfl
        cases hspace
      rw [if_pos hspace, if_pos ⟨rfl, hspace⟩, hquote]
      rfl
    · rw [if_neg hspace, if_neg fun h => hspace h.2]
      rfl

/-- White space behind a character that is no quote. -/
theorem minifyLoop_cons_blank {c : UInt8} (hc : c ≠ 34) (e : Bool) {b : List UInt8}
    (hb : ∀ d ∈ b, isSpace d = true) (r : List UInt8) :
    minifyLoop false e (c :: (b ++ r)) = minifyLoop false e (c :: r) := by
  rw [minifyLoop, minifyLoop, beq_eq_false_iff_ne.mpr hc, minifyLoop_blank hb]

/-- What minification has kept so far is not changed by what follows. -/
theorem minifyLoop_append (i e : Bool) (l : List UInt8) : ∃ i' e', ∀ r,
    minifyLoop i e (l ++ r) = minifyLoop i e l ++ minifyLoop i' e' r := by
  induction l generalizing i e with
  | nil =>
    refine ⟨i, e, fun r => ?_⟩
    cases i <;> rfl
  | cons c l ih =>
    have hcons (r : List UInt8) := minifyLoop_cons ⟨0, i, e⟩ c r
    obtain ⟨i', e', h⟩ := ih (next ⟨0, i, e⟩ c).inString (next ⟨0, i, e⟩ c).escaped
    refine ⟨i', e', fun r => ?_⟩
    rw [List.cons_append, hcons, hcons, h, List.append_assoc]

/-- Only white space is minified to nothing. -/
theorem blank_of_minifyLoop {i e : Bool} {l : List UInt8} (h : minifyLoop i e l = []) :
    ∀ c ∈ l, isSpace c = true := by
  induction l generalizing i e with
  | nil => simp
  | cons c l ih =>
    rw [minifyLoop_cons ⟨0, i, e⟩, List.append_eq_nil_iff, kept] at h
    obtain ⟨hkept, hrest⟩ := h
    split_ifs at hkept with hspace
    exact List.forall_mem_cons.mpr ⟨hspace.2, ih hrest⟩

section

variable {bound : Nat} {indent : Int}

/-- **A character is printed as itself and white space**, also where the buffer ends. -/
theorem minifyLoop_prettyChar (s : PrettyState) (c : UInt8) :
    ∃ x, (prettyChar bound indent s c).out = s.out ++ x ∧
      ∀ r, minifyLoop s.inString s.escaped (x ++ r) = minifyLoop s.inString s.escaped (c :: r) := by
  obtain ⟨out, level, i, e⟩ := s
  have hblank (n : Nat) : ∀ d ∈ 10 :: List.replicate n 32, isSpace d = true := by
    intro d hd
    rcases List.mem_cons.mp hd with rfl | hd
    · rfl
    · rw [List.eq_of_mem_replicate hd]
      rfl
  unfold prettyChar
  simp only [putBlanks_eq]
  cases i with
  | true => exact ⟨[c], rfl, fun _ => rfl⟩
  | false =>
    simp only [Bool.false_eq_true, if_false]
    split_ifs with hopen hclose hcomma hcolon
    · have hc : c ≠ 34 := by rcases hopen with rfl | rfl <;> decide
      exact ⟨_, List.append_assoc _ _ _, minifyLoop_cons_blank hc e (hblank _)⟩
    · refine ⟨_, (congrArg (· ++ [c]) (List.append_assoc _ _ _)).trans (List.append_assoc _ _ _),
        fun r => ?_⟩
      have hline := minifyLoop_blank (hblank (min (indentWidth (level - 1) indent)
        (bound - (out ++ [10]).length))) e (c :: r)
      simpa using hline
    · have hc : c ≠ 34 := by
        rw [hcomma]
        decide
      exact ⟨_, List.append_assoc _ _ _, minifyLoop_cons_blank hc e (hblank _)⟩
    · have hc : c ≠ 34 := by
        rw [hcolon]
        decide
      have hspace : ∀ d ∈ [(32 : UInt8)], isSpace d = true := List.forall_mem_singleton.mpr rfl
      exact ⟨[c, 32], rfl, minifyLoop_cons_blank hc e hspace⟩
    · exact ⟨[c], rfl, fun _ => rfl⟩

/-- **What the loop has printed** is, but for white space, the text up to some place.  To get there
all of the text in front of it was printed whole. -/
theorem exists_printed (l : List UInt8) {s : PrettyState} {y : List UInt8}
    (h : ∀ r, minifyLoop false false (s.out ++ r) = y ++ minifyLoop s.inString s.escaped r) :
    ∃ pre suf, l = pre ++ suf ∧
      (∀ q c x, pre = q ++ c :: x → s.out.length + (printed indent s.mode q).length < bound) ∧
      minifyLoop false false (prettyLoop bound indent l s).out =
        y ++ minifyLoop s.inString s.escaped pre := by
  have hout : minifyLoop false false s.out = y ++ minifyLoop s.inString s.escaped [] := by
    have hnil := h []
    rwa [List.append_nil] at hnil
  induction l generalizing s y with
  | nil => exact ⟨[], [], rfl, by simp, hout⟩
  | cons c l ih =>
    by_cases hlt : s.out.length < bound
    · obtain ⟨x, hx, hminify⟩ := @minifyLoop_prettyChar bound indent s c
      have hnext (r : List UInt8) : minifyLoop false false
          ((prettyChar bound indent s c).out ++ r) = y ++ kept s.mode c ++
            minifyLoop (prettyChar bound indent s c).mode.inString
              (prettyChar bound indent s c).mode.escaped r := by
        rw [hx, List.append_assoc, h, hminify, mode_prettyChar, List.append_assoc]
        exact congrArg (y ++ ·) (minifyLoop_cons s.mode c r)
      have hnil := hnext []
      rw [List.append_nil] at hnil
      have hcons (pre : List UInt8) : y ++ kept s.mode c ++
          minifyLoop (prettyChar bound indent s c).mode.inString
            (prettyChar bound indent s c).mode.escaped pre =
          y ++ minifyLoop s.inString s.escaped (c :: pre) := by
        rw [mode_prettyChar, List.append_assoc]
        exact congrArg (y ++ ·) (minifyLoop_cons s.mode c pre).symm
      rw [prettyLoop, if_pos hlt]
      by_cases hfits : s.out.length + (s.mode.piece indent c).length ≤ bound
      · obtain ⟨pre, suf, rfl, hpre, hloop⟩ := ih hnext hnil
        rw [out_prettyChar_of_fits hfits, mode_prettyChar, List.length_append] at hpre
        refine ⟨c :: pre, suf, rfl, fun q d z hq => ?_, hloop.trans (hcons pre)⟩
        cases q with
        | nil => exact hlt
        | cons e q =>
          obtain ⟨rfl, hq'⟩ := List.cons.inj hq
          rw [printed, List.length_append, ← Nat.add_assoc]
          exact hpre q d z hq'
      -- the loop ends behind a character that does not fit
      · have hfull := (length_prettyChar_of_not_fits hlt (not_le.mp hfits)).1
        rw [prettyLoop_full hfull]
        refine ⟨[c], l, rfl, fun q d z hq => ?_, hnil.trans (hcons [])⟩
        cases q with
        | nil => exact hlt
        | cons e q => exact absurd (List.cons.inj hq).2 (by simp)
    · rw [prettyLoop_full (not_lt.mp hlt)]
      exact ⟨[], c :: l, rfl, by simp, hout⟩

/-- **A text that fits is printed whole.** -/
theorem prettyLoop_of_fits (l : List UInt8) {s : PrettyState}
    (h : s.out.length + (printed indent s.mode l).length ≤ bound) :
    (prettyLoop bound indent l s).out = s.out ++ printed indent s.mode l ∧
      (prettyLoop bound indent l s).mode = s.mode.after l := by
  induction l generalizing s with
  | nil => exact ⟨(List.append_nil _).symm, rfl⟩
  | cons c l ih =>
    have hpiece : 0 < (s.mode.piece indent c).length := by
      unfold piece lineBreak
      split_ifs <;> simp
    rw [printed, List.length_append] at h
    have hout := @out_prettyChar_of_fits bound indent s c (by omega)
    have hrest := ih (s := prettyChar bound indent s c)
      (by rw [hout, List.length_append, mode_prettyChar]; omega)
    rw [hout, mode_prettyChar] at hrest
    rw [prettyLoop, if_pos (by omega), hrest.1, hrest.2, printed, List.append_assoc]
    exact ⟨rfl, rfl⟩

/-- White space behind a text is printed as far as it fits. -/
theorem prettyLoop_blank {b : List UInt8} (hb : IsJsonBlank b) {s : PrettyState} {level : Int}
    (hs : s.mode = ⟨level, false, false⟩) (hbound : s.out.length ≤ bound) :
    ∃ k, (prettyLoop bound indent b s).out = s.out ++ b.take k ∧
      s.out.length + (b.take k).length ≤ bound := by
  induction b generalizing s with
  | nil => exact ⟨0, (List.append_nil _).symm, hbound⟩
  | cons c b ih =>
    have hc := isUnmarked_of_blank hb c List.mem_cons_self
    have hpiece : s.mode.piece indent c = [c] := by rw [hs, piece_of_isUnmarked hc]
    rw [prettyLoop]
    split_ifs with hlt
    · have hout : (prettyChar bound indent s c).out = s.out ++ [c] := by
        rw [out_prettyChar_of_fits (by rw [hpiece]; exact hlt), hpiece]
      obtain ⟨k, hk, hle⟩ := ih (fun d hd => hb d (List.mem_cons_of_mem _ hd))
        (s := prettyChar bound indent s c) (by rw [mode_prettyChar, hs, next_of_isUnmarked hc])
        (by rw [hout, List.length_append]; exact hlt)
      rw [hout, List.length_append, List.length_singleton] at hle
      refine ⟨k + 1, ?_, ?_⟩
      · rw [hk, hout, List.append_assoc]
        rfl
      · rw [List.take_succ_cons, List.length_cons]
        omega
    · exact ⟨0, (List.append_nil _).symm, hbound⟩

/-- No other characters are printed than those of the text, new lines and blanks. -/
theorem mem_prettyLoop {l : List UInt8} {s : PrettyState} {d : UInt8}
    (hd : d ∈ (prettyLoop bound indent l s).out) : d ∈ s.out ∨ d ∈ l ∨ d = 10 ∨ d = 32 := by
  induction l generalizing s with
  | nil => exact .inl hd
  | cons c l ih =>
    rw [prettyLoop] at hd
    split_ifs at hd with hlt
    · have hchar : d ∈ (prettyChar bound indent s c).out →
          d ∈ s.out ∨ d = c ∨ d = 10 ∨ d = 32 := by
        unfold prettyChar
        simp only [putBlanks_eq]
        split_ifs <;> simp only [List.mem_append, List.mem_cons, List.mem_replicate] <;> tauto
      rcases ih hd with h | h | h
      · rcases hchar h with h | rfl | h
        · exact .inl h
        · exact .inr (.inl List.mem_cons_self)
        · exact .inr (.inr h)
      · exact .inr (.inl (List.mem_cons_of_mem c h))
      · exact .inr (.inr h)
    · exact .inl hd

end

/-- **Without a bound only white space is put in.** -/
theorem minifyLoop_printed (indent : Int) (m : PrettyMode) (l : List UInt8) :
    minifyLoop m.inString m.escaped (printed indent m l) =
      minifyLoop m.inString m.escaped l := by
  induction l generalizing m with
  | nil => rfl
  | cons c l ih =>
    have hpiece (r : List UInt8) : minifyLoop m.inString m.escaped (m.piece indent c ++ r) =
        minifyLoop m.inString m.escaped (c :: r) := by
      obtain ⟨x, hx, hminify⟩ := @minifyLoop_prettyChar (m.piece indent c).length indent
        ⟨[], m.level, m.inString, m.escaped⟩ c
      rw [out_prettyChar_of_fits (Nat.zero_add _).le] at hx
      obtain rfl := List.append_cancel_left hx
      exact hminify r
    rw [printed, hpiece, minifyLoop_cons, ih, ← minifyLoop_cons]

/-! ### The tokens -/

/-- The tokens come back. -/
def PrettyKeeps (p : Platform) (s : CString) (indent : Int) : Prop :=
  ∃ t, jsonPrettyPrint p (some s) indent = .ok (some t) ∧ tokens t.bytes = tokens s.bytes

/-- A value does not end in a character that begins something. -/
theorem JsonValue.exists_last {v : List UInt8} (hv : JsonValue v) :
    ∃ q d, v = q ++ [d] ∧ isSpace d = false ∧ d ∉ ascii "\x7b[,:" := by
  cases hv with
  | word h =>
    have hall : ∀ v ∈ [ascii "false", ascii "null", ascii "true"], ∃ q d, v = q ++ [d] ∧
        isSpace d = false ∧ d ∉ ascii "\x7b[,:" := by
      intro v hv
      simp only [List.mem_cons, List.not_mem_nil, or_false] at hv
      rcases hv with rfl | rfl | rfl
      · exact ⟨ascii "fals", 101, by decide⟩
      · exact ⟨ascii "nul", 108, by decide⟩
      · exact ⟨ascii "tru", 101, by decide⟩
    exact hall v h
  | number h =>
    have hn := h.numberText
    obtain ⟨c, l, hcons, -⟩ := hn.head
    obtain ⟨q, d, rfl⟩ := (List.eq_nil_or_concat' v).resolve_left (by rw [hcons]; simp)
    have hmem : d ∈ q ++ [d] := by simp
    refine ⟨q, d, rfl, (hn.notSpace d hmem).1, fun hd => ?_⟩
    have hunmarked := ne_of_isUnmarked (hn.isUnmarked d hmem)
    have hall : ∀ d ∈ ascii "\x7b[,:", d = 123 ∨ d = 91 ∨ d = 44 ∨ d = 58 :=
      List.forall_iff_forall_mem.mp (by decide)
    rcases hall d hd with rfl | rfl | rfl | rfl <;> simp at hunmarked
  | @string l _ => exact ⟨34 :: l, 34, rfl, rfl, by decide⟩
  | object h =>
    cases h with
    | @empty a _ => exact ⟨123 :: a, 125, rfl, rfl, by decide⟩
    | @members l _ => exact ⟨123 :: l, 125, rfl, rfl, by decide⟩
  | @emptyArray a _ => exact ⟨91 :: a, 93, rfl, rfl, by decide⟩
  | @array l _ => exact ⟨91 :: l, 93, rfl, rfl, by decide⟩

/-- Such a character is not cut short. -/
theorem room_eq_length_piece {c : UInt8} (hc : c ∉ ascii "\x7b[,:") (indent : Int)
    (m : PrettyMode) : m.room indent c = (m.piece indent c).length := by
  have hmem : ∀ c, c = 123 ∨ c = 91 ∨ c = 44 ∨ c = 58 → c ∈ ascii "\x7b[,:" := by
    rintro c (rfl | rfl | rfl | rfl) <;> decide
  unfold room piece lineBreak
  split_ifs with hstring hopen hclose hcomma hcolon
  · rfl
  · exact absurd (hmem c (hopen.imp_right .inl)) hc
  · simp
  · exact absurd (hmem c (.inr (.inr (.inl hcomma)))) hc
  · exact absurd (hmem c (.inr (.inr (.inr hcolon)))) hc
  · rfl

variable {p : Platform} {s : CString} {indent : Int}

theorem jsonPrettyPrint_eq (hindent : 0 < indent) (hcopy : p.malloc (s.length + 1) = true)
    (hbuffer : p.malloc (s.length * 2) = true) : jsonPrettyPrint p (some s) indent =
      if (prettyText s indent).length < s.length * 2 then
        .ok (some (CString.ofBytes (prettyText s indent)))
      else .error .overrun := by
  rw [jsonPrettyPrint, jsonStrdup, if_pos hcopy]
  simp only [hindent, hbuffer, prettyWrites_lt_iff, and_self, if_true]

theorem bytes_prettyText (s : CString) (indent : Int) :
    (CString.ofBytes (prettyText s indent)).bytes = prettyText s indent := by
  apply CString.bytes_ofBytes
  intro hzero
  rcases mem_prettyLoop hzero with h | h | h | h
  · cases h
  · exact s.nulFree h
  · cases h
  · cases h

/-- A JSON text is printed as a JSON text. -/
theorem JsonDocument.prints (indent : Int) {l : List UInt8} (hl : JsonDocument l) :
    JsonDocument (printed indent .start l) ∧ Prints indent 0 l (printed indent .start l) := by
  obtain ⟨a, v, b, rfl, ha, hv, hb⟩ := hl
  obtain ⟨w, hw, hprints⟩ := hv.prints indent 0
  have hall := (prints_blank ha).append (hprints.append (prints_blank hb))
  exact ⟨⟨a, w, b, hall.printed_eq, ha, hw, hb⟩, rfl, hall.after_eq⟩

theorem JsonDocument.concat_blank {l b : List UInt8} (hl : JsonDocument l) (hb : IsJsonBlank b) :
    JsonDocument (l ++ b) := by
  obtain ⟨a, v, b', rfl, ha, hv, hb'⟩ := hl
  exact ⟨a, v, b' ++ b, by simp, ha, hv, hb'.append hb⟩

/-- **The printed text of a JSON text** has the same tokens. -/
theorem tokens_printed {l : List UInt8} (hl : JsonDocument l) (indent : Int) :
    tokens (printed indent .start l) = tokens l := by
  have hminify := minifyLoop_printed indent .start l
  rw [← tokens_minifyLoop (hl.prints indent).1, ← tokens_minifyLoop hl]
  exact congrArg tokens hminify

/-- White space at the end of a JSON text makes no difference. -/
theorem tokens_concat_blank {l b b' : List UInt8} (hl : JsonDocument l) (hb : IsJsonBlank b)
    (hb' : IsJsonBlank b') : tokens (l ++ b) = tokens (l ++ b') := by
  obtain ⟨ts, hts, hlex⟩ := hl.lexes
  rw [(hlex.concat_blank (isSpace_of_blank hb)).tokens_eq hts,
    (hlex.concat_blank (isSpace_of_blank hb')).tokens_eq hts]

/-- The parts of a JSON text: what is left without the white space at its end, and that. -/
theorem JsonDocument.parts {l : List UInt8} (hl : JsonDocument l) :
    ∃ q d b, l = q ++ [d] ++ b ∧ l.rdropWhile isSpace = q ++ [d] ∧ JsonDocument (q ++ [d]) ∧
      isSpace d = false ∧ d ∉ ascii "\x7b[,:" ∧ IsJsonBlank b := by
  obtain ⟨a, v, b, rfl, ha, hv, hb⟩ := hl
  obtain ⟨q, d, rfl, hspace, hmark⟩ := hv.exists_last
  refine ⟨a ++ q, d, b, by simp, ?_, ⟨a, q ++ [d], [], by simp, ha, hv, isJsonBlank_nil⟩, hspace,
    hmark, hb⟩
  have hdrop : (b.reverse ++ d :: (q.reverse ++ a.reverse)).dropWhile isSpace =
      d :: (q.reverse ++ a.reverse) := by
    rw [List.dropWhile_append_of_pos fun c hc => isSpace_of_blank hb c (List.mem_reverse.mp hc)]
    exact List.dropWhile_cons_of_neg (by simp [hspace])
  rw [List.rdropWhile]
  simp [hdrop]

/-- Where all of the text fits, it is printed whole up to white space at its end. -/
theorem prettyText_of_fits {l b : List UInt8} (hs : s.bytes = l ++ b) (hl : JsonDocument l)
    (hb : IsJsonBlank b) (hfits : (printed indent .start l).length < s.length * 2) :
    (prettyText s indent).length < s.length * 2 ∧
      tokens (prettyText s indent) = tokens s.bytes := by
  have hle := Nat.le_pred_of_lt hfits
  have hprints := (hl.prints indent).2
  obtain ⟨hout, hmode⟩ := @prettyLoop_of_fits (s.length * 2 - 1) indent l ⟨[], 0, false, false⟩
    (by rw [List.length_nil, Nat.zero_add]; exact hle)
  rw [List.nil_append] at hout
  obtain ⟨k, hk, hlength⟩ := @prettyLoop_blank (s.length * 2 - 1) indent b hb
    (prettyLoop (s.length * 2 - 1) indent l ⟨[], 0, false, false⟩) 0
    (hmode.trans hprints.after_eq) (by rw [hout]; exact hle)
  have hblank : IsJsonBlank (b.take k) := fun c hc => hb c (List.mem_of_mem_take hc)
  have htext : prettyText s indent = printed indent .start (l ++ b.take k) := by
    rw [prettyText, hs, prettyLoop_append, hk, hout]
    exact (hprints.append (prints_blank hblank)).printed_eq.symm
  constructor
  · rw [prettyText, hs, prettyLoop_append, hk, List.length_append]
    omega
  · rw [htext, tokens_printed (hl.concat_blank hblank), hs]
    exact tokens_concat_blank hl hblank hb

/-- With the tokens all of the text has been printed, and it has found room. -/
theorem fits_of_tokens {q b : List UInt8} {d : UInt8} (hs : s.bytes = q ++ [d] ++ b)
    (hdocument : JsonDocument s.bytes) (hspace : isSpace d = false) (hd : d ∉ ascii "\x7b[,:")
    (hlength : (prettyText s indent).length < s.length * 2)
    (htokens : tokens (prettyText s indent) = tokens s.bytes) :
    (printed indent .start (q ++ [d])).length < s.length * 2 := by
  obtain ⟨ts, hts, hlex⟩ := hdocument.lexes
  have hsource := hlex.tokens_eq hts
  have hzero : (0 : UInt8) ∉ prettyText s indent := by
    rw [← bytes_prettyText]
    exact CString.nulFree _
  have hminify : minifyLoop false false (prettyText s indent) = minifyLoop false false s.bytes := by
    rw [minifyLoop_of_tokens hzero (htokens.trans hsource), minifyLoop_of_tokens s.nulFree hsource]
  -- what is not printed is white space
  obtain ⟨pre, suf, hsplit, hpre, hloop⟩ := @exists_printed (s.length * 2 - 1) indent s.bytes
    ⟨[], 0, false, false⟩ [] fun r => rfl
  have hkept : minifyLoop false false (prettyText s indent) = minifyLoop false false pre := hloop
  obtain ⟨i, e, happend⟩ := minifyLoop_append false false pre
  rw [hkept, hsplit, happend] at hminify
  have hsuf := blank_of_minifyLoop (List.self_eq_append_right.mp hminify)
  -- so the last character was printed, and there was room for it
  obtain ⟨x, rfl⟩ : ∃ x, pre = q ++ d :: x := by
    rw [hs] at hsplit
    rcases List.append_eq_append_iff.mp hsplit with ⟨x, rfl, -⟩ | ⟨x, hx, rfl⟩
    · exact ⟨x, by simp⟩
    · rcases List.eq_nil_or_concat' x with rfl | ⟨y, e', rfl⟩
      · exact ⟨[], by rw [hx, List.append_nil]⟩
      · rw [← List.append_assoc] at hx
        obtain ⟨-, hde⟩ := List.append_inj' hx rfl
        obtain rfl : d = e' := List.singleton_injective hde
        have hblank := hsuf d (by simp)
        rw [hspace] at hblank
        cases hblank
  have hroom := ((length_prettyText_lt_iff s indent).mp hlength).2 q d (x ++ suf)
    (by rw [hsplit]; simp)
  have hlt := hpre q d x rfl
  rw [List.length_nil, Nat.zero_add] at hlt
  rw [room_eq_length_piece hd] at hroom
  have hle := hroom hlt
  rw [printed_append, List.length_append, printed, printed, List.append_nil]
  omega

/-- With a buffer all of the text has to find room, but for white space at its end. -/
theorem prettyKeeps_iff_fits (hs : JsonDocument s.bytes) (hindent : 0 < indent)
    (hcopy : p.malloc (s.length + 1) = true) (hbuffer : p.malloc (s.length * 2) = true) :
    PrettyKeeps p s indent ↔
      (printed indent .start (s.bytes.rdropWhile isSpace)).length < s.length * 2 := by
  obtain ⟨q, d, b, hsplit, hdrop, hdocument, hspace, hd, hb⟩ := hs.parts
  rw [PrettyKeeps, jsonPrettyPrint_eq hindent hcopy hbuffer, hdrop]
  constructor
  · rintro ⟨t, ht, htokens⟩
    split_ifs at ht with hlength
    obtain rfl := Option.some.inj (Except.ok.inj ht)
    rw [bytes_prettyText] at htokens
    exact fits_of_tokens hsplit hs hspace hd hlength htokens
  · intro hfits
    obtain ⟨hlength, htokens⟩ := prettyText_of_fits hsplit hdocument hb hfits
    rw [if_pos hlength]
    exact ⟨_, rfl, by rw [bytes_prettyText, htokens]⟩

/-- **The tokens of a JSON text come back** exactly if the text can be copied and, where there is
memory for the buffer, the text printed with all of its indentation is shorter than that; white space
at its end does not count. -/
theorem pretty_keeps_tokens_iff (p : Platform) (s : CString) (indent : Int)
    (hs : JsonDocument s.bytes) (hindent : 0 < indent) : PrettyKeeps p s indent ↔
      p.malloc (s.length + 1) = true ∧ (p.malloc (s.length * 2) = true →
        (printed indent .start (s.bytes.rdropWhile isSpace)).length < s.length * 2) := by
  by_cases hcopy : p.malloc (s.length + 1) = true
  · rw [and_iff_right hcopy]
    by_cases hbuffer : p.malloc (s.length * 2) = true
    · rw [prettyKeeps_iff_fits hs hindent hcopy hbuffer]
      exact ⟨fun h _ => h, fun h => h hbuffer⟩
    -- without a buffer the copy is handed over
    · have hresult : jsonPrettyPrint p (some s) indent = .ok (some s) := by
        rw [jsonPrettyPrint, jsonStrdup, if_pos hcopy]
        exact if_neg fun h => hbuffer h.2
      exact ⟨fun _ h => absurd h hbuffer, fun _ => ⟨s, hresult, rfl⟩⟩
  · have hresult : jsonPrettyPrint p (some s) indent = .ok none := by
      rw [jsonPrettyPrint, jsonStrdup, if_neg hcopy]
    constructor
    · rintro ⟨t, ht, -⟩
      cases ht.symm.trans hresult
    · exact fun h => absurd h.1 hcopy

/-- An array within an object, which has room for its indentation. -/
theorem pretty_keeps_tokens_nested : PrettyKeeps .epoch (cstr "\x7b\"a\":[\"x, y\"]\x7d") 1 := by
  have hkey : JsonChars (ascii "a") := @jsonChars_of_chars "a".toList (by decide)
  have hvalue : JsonChars (ascii "x, y") := @jsonChars_of_chars "x, y".toList (by decide)
  have hspelled : Spelled [.objectStart, .string (cstr "a"), .colon, .arrayStart,
      .string (cstr "x, y"), .arrayEnd, .objectEnd] (cstr "\x7b\"a\":[\"x, y\"]\x7d").bytes [] :=
    .cons (a := []) isJsonBlank_nil .objectStart <|
      .cons (a := []) isJsonBlank_nil (.string hkey) <|
      .cons (a := []) isJsonBlank_nil .colon <| .cons (a := []) isJsonBlank_nil .arrayStart <|
      .cons (a := []) isJsonBlank_nil (.string hvalue) <|
      .cons (a := []) isJsonBlank_nil .arrayEnd <|
      .cons (a := []) isJsonBlank_nil .objectEnd .nil
  have hdocument : JsonDocument (cstr "\x7b\"a\":[\"x, y\"]\x7d").bytes :=
    ((Completes.done isJsonBlank_nil).jsonText hspelled rfl).document
  exact (pretty_keeps_tokens_iff .epoch (cstr "\x7b\"a\":[\"x, y\"]\x7d") 1 hdocument (by decide)).mpr
    ⟨rfl, fun _ => by decide⟩

/-- Of `[]`, what is printed ends in front of the closing bracket. -/
theorem pretty_loses_tokens : ¬∀ (s : CString) (indent : Int), JsonDocument s.bytes → 0 < indent →
    PrettyKeeps .epoch s indent := by
  intro h
  obtain ⟨t, ht, htokens⟩ := h (cstr "[]") 1 jsonDocument_emptyArray (by decide)
  have hprinted : jsonPrettyPrint .epoch (some (cstr "[]")) 1 = .ok (some (cstr "[\n ")) := by
    decide
  obtain rfl := Option.some.inj (Except.ok.inj (ht.symm.trans hprinted))
  exact absurd htokens (by decide)

/-! ### Any text -/

/-- **Printing loses nothing but the end**: of a text, JSON or not, what is printed is minified to a
beginning of what the text is minified to, and to all of it if the printed text fits. -/
theorem prettyPrint_keeps_beginning {t : CString}
    (h : jsonPrettyPrint p (some s) indent = .ok (some t)) :
    (minified t).bytes <+: (minified s).bytes ∧
      ((printed indent .start s.bytes).length < s.length * 2 → minified t = minified s) := by
  rw [jsonPrettyPrint, jsonStrdup] at h
  split_ifs at h with hcopy
  · dsimp only at h
    split_ifs at h with hbuffer hwrites
    · obtain rfl := Option.some.inj (Except.ok.inj h)
      have hbytes := bytes_prettyText s indent
      constructor
      · obtain ⟨pre, suf, hsplit, -, hloop⟩ := @exists_printed (s.length * 2 - 1) indent s.bytes
          ⟨[], 0, false, false⟩ [] fun r => rfl
        obtain ⟨i, e, happend⟩ := minifyLoop_append false false pre
        show minifyLoop false false _ <+: minifyLoop false false s.bytes
        rw [hbytes, hsplit, happend]
        exact ⟨_, congrArg (· ++ minifyLoop i e suf) hloop⟩
      · intro hfits
        have hout : prettyText s indent = printed indent .start s.bytes :=
          (prettyLoop_of_fits s.bytes (s := ⟨[], 0, false, false⟩)
            (Nat.le_sub_one_of_lt ((Nat.zero_add _).trans_lt hfits))).1
        ext1
        show minifyLoop false false _ = minifyLoop false false s.bytes
        rw [hbytes, hout]
        exact minifyLoop_printed indent .start s.bytes
    -- without a buffer the copy is handed over
    · obtain rfl := Option.some.inj (Except.ok.inj h)
      exact ⟨List.prefix_rfl, fun _ => rfl⟩
  · cases h

/-- A string that is not closed is copied. -/
theorem prettyPrint_keeps_beginning_open : ∃ t,
    jsonPrettyPrint .epoch (some (cstr "\"a b")) 2 = .ok (some t) ∧
      minified t = minified (cstr "\"a b") := by
  have hprinted : jsonPrettyPrint .epoch (some (cstr "\"a b")) 2 = .ok (some (cstr "\"a b")) := by
    decide
  exact ⟨_, hprinted, (prettyPrint_keeps_beginning hprinted).2 (by decide)⟩

end Luminix
