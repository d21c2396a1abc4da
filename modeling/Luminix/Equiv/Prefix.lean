import Luminix.Equiv.RoundTrip

/-!
# Texts that go on

What the reader has accepted it also accepts when more text follows (`accepted_append` for the whole
file): each loop ends with a closing token, which is read the same whatever comes after it.  The
tokens before it can only differ if they end where the text ends, and behind such a token nothing
can be read at all (`Dead`), in particular no closing token.
-/

namespace Luminix

open CLib TokenReader

/-! ### Tokens -/

/-- Nothing can be read from here on. -/
def Dead (l : List UInt8) : Prop := (jsonParseToken l).1 = .none ∨ (jsonParseToken l).1 = .eof

theorem dead_nil : Dead [] := .inr rfl

theorem Dead.ne {l r : List UInt8} {t : JsonToken} (h : Dead l) (ht : jsonParseToken l = (t, r))
    (hnone : t ≠ .none) (heof : t ≠ .eof) : False := by
  unfold Dead at h
  rw [ht] at h
  exact h.elim hnone heof

theorem skipDigits_append {l : List UInt8} (h : skipDigits l ≠ []) (x : List UInt8) :
    skipDigits (l ++ x) = skipDigits l ++ x := by
  unfold skipDigits at h ⊢
  rw [List.dropWhile_append, if_neg]
  rwa [List.isEmpty_iff]

theorem skipMinus_append {l : List UInt8} (h : l ≠ []) (x : List UInt8) :
    skipMinus (l ++ x) = skipMinus l ++ x := by
  obtain ⟨c, l, rfl⟩ := List.exists_cons_of_ne_nil h
  by_cases hc : c = 45
  · subst hc
    rfl
  · rw [List.cons_append, skipMinus_of_ne hc, skipMinus_of_ne hc, List.cons_append]

theorem skipSign_append {l : List UInt8} (h : l ≠ []) (x : List UInt8) :
    skipSign (l ++ x) = skipSign l ++ x := by
  obtain ⟨c, l, rfl⟩ := List.exists_cons_of_ne_nil h
  by_cases hplus : c = 43
  · subst hplus
    rfl
  · by_cases hminus : c = 45
    · subst hminus
      rfl
    · rw [List.cons_append, skipSign_of_ne hplus hminus, skipSign_of_ne hplus hminus,
        List.cons_append]

theorem skipDecimals_append {l : List UInt8} (h : skipDecimals l ≠ []) (x : List UInt8) :
    skipDecimals (l ++ x) = skipDecimals l ++ x := by
  cases l with
  | nil => exact absurd rfl h
  | cons c l =>
    by_cases hc : c = 46
    · subst hc
      exact skipDigits_append h x
    · rw [List.cons_append, skipDecimals_of_ne hc, skipDecimals_of_ne hc, List.cons_append]

theorem skipExponent_append {l : List UInt8} (h : skipExponent l ≠ []) (x : List UInt8) :
    skipExponent (l ++ x) = skipExponent l ++ x := by
  have hdigits : ∀ {l}, skipDigits (skipSign l) ≠ [] →
      skipDigits (skipSign (l ++ x)) = skipDigits (skipSign l) ++ x := by
    intro l h
    have hne : l ≠ [] := by
      rintro rfl
      exact h rfl
    rw [skipSign_append hne, skipDigits_append h]
  cases l with
  | nil => exact absurd rfl h
  | cons c l =>
    by_cases hlow : c = 101
    · subst hlow
      exact hdigits h
    · by_cases hupp : c = 69
      · subst hupp
        exact hdigits h
      · rw [List.cons_append, skipExponent_of_ne hlow hupp, skipExponent_of_ne hlow hupp,
          List.cons_append]

/-- A number that ends before the text does is the same number when the text goes on. -/
theorem skipNumber_append_right {l : List UInt8} (h : skipNumber l ≠ []) (x : List UInt8) :
    skipNumber (l ++ x) = skipNumber l ++ x := by
  unfold skipNumber at h ⊢
  have hdecimals : skipDecimals (skipDigits (skipMinus l)) ≠ [] := by
    intro h0
    rw [h0] at h
    exact h rfl
  have hdigits : skipDigits (skipMinus l) ≠ [] := by
    intro h0
    rw [h0] at hdecimals
    exact hdecimals rfl
  have hne : l ≠ [] := by
    rintro rfl
    exact hdigits rfl
  rw [skipMinus_append hne, skipDigits_append hdigits, skipDecimals_append hdecimals,
    skipExponent_append h]

theorem scanNumber_append {l : List UInt8} (h : skipNumber l ≠ []) (x : List UInt8) :
    scanNumber (l ++ x) = ((scanNumber l).1, (scanNumber l).2 ++ x) := by
  have hlen : (l ++ x).length - (skipNumber l ++ x).length = l.length - (skipNumber l).length := by
    rw [List.length_append, List.length_append]
    omega
  unfold scanNumber
  rw [skipNumber_append_right h, hlen, List.take_append_of_le_length (Nat.sub_le _ _)]

/-- Only what follows the blanks counts. -/
theorem parseToken_congr {l l' : List UInt8} (h : jsonSkipWhitespace l = jsonSkipWhitespace l') :
    jsonParseToken l = jsonParseToken l' := by
  unfold jsonParseToken
  rw [h]

theorem scanWord_append (word : List UInt8) (t : JsonToken) (l : List UInt8) :
    ((scanWord word t l) = (.none, l)) ∨
      ∀ x, scanWord word t (l ++ x) = (t, (scanWord word t l).2 ++ x) := by
  by_cases h : word.isPrefixOf l = true
  · right
    intro x
    obtain ⟨r, rfl⟩ := List.isPrefixOf_iff_prefix.mp h
    have hword : ∀ r, scanWord word t (word ++ r) = (t, r) := by
      intro r
      have hpre : word.isPrefixOf (word ++ r) = true :=
        List.isPrefixOf_iff_prefix.mpr (List.prefix_append word r)
      unfold scanWord jsonMatchString
      rw [if_pos hpre, List.drop_left]
    rw [List.append_assoc, hword, hword]
  · left
    unfold scanWord jsonMatchString
    rw [if_neg h]

/-- A character that starts no other token may start a number. -/
theorem parseToken_other {c : UInt8} (hspace : isSpace c = false) (h123 : c ≠ 123) (h125 : c ≠ 125)
    (h91 : c ≠ 91) (h93 : c ≠ 93) (h58 : c ≠ 58) (h44 : c ≠ 44) (h34 : c ≠ 34) (h116 : c ≠ 116)
    (h102 : c ≠ 102) (h110 : c ≠ 110) (m : List UInt8) : jsonParseToken (c :: m) =
      if c == 45 || isDigit c then scanNumber (c :: m) else (.none, c :: m) := by
  have hself : jsonSkipWhitespace (c :: m) = c :: m := List.dropWhile_cons_of_neg (by simp [hspace])
  unfold jsonParseToken
  rw [hself]
  split <;> simp_all

/-- What `f` reads at the beginning of `l` is the same when the text goes on, unless it ends where
the text does: then nothing can be read behind it. -/
def Kept (f : List UInt8 → JsonToken × List UInt8) (l : List UInt8) : Prop :=
  (Dead (f l).2 ∧ ((f l).1 = .none ∨ (f l).1 = .eof ∨ ∃ s, (f l).1 = .number s)) ∨
    ((f l).1 ≠ .none ∧ (f l).1 ≠ .eof ∧ ∀ x, f (l ++ x) = ((f l).1, (f l).2 ++ x))

theorem Kept.of_eq {f g : List UInt8 → JsonToken × List UInt8} {l m : List UInt8} (h : Kept g m)
    (heq : ∀ x, f (l ++ x) = g (m ++ x)) : Kept f l := by
  have hself : f l = g m := by
    have h0 := heq []
    rwa [List.append_nil, List.append_nil] at h0
  unfold Kept
  rw [hself]
  simp only [heq]
  exact h

theorem kept_mark {t : JsonToken} (hnone : t ≠ .none) (heof : t ≠ .eof) (m : List UInt8) :
    Kept (fun m => (t, m)) m := .inr ⟨hnone, heof, fun _ => rfl⟩

/-- A keyword is read whole or not at all. -/
theorem kept_scanWord {word : List UInt8} {t : JsonToken} {l : List UInt8} (hnone : t ≠ .none)
    (heof : t ≠ .eof) (hparse : jsonParseToken l = scanWord word t l) : Kept (scanWord word t) l := by
  rcases scanWord_append word t l with hmiss | hgood
  · left
    rw [hmiss] at hparse ⊢
    refine ⟨.inl ?_, .inl rfl⟩
    rw [hparse]
  · right
    have htoken : (scanWord word t l).1 = t := by
      have h0 := hgood []
      rw [List.append_nil] at h0
      rw [h0]
    rw [htoken]
    exact ⟨hnone, heof, hgood⟩

/-- A string ends with its quotation mark. -/
theorem kept_scanString (m : List UInt8) : Kept scanString m := by
  cases hbody : stringBody false m with
  | mk body rest =>
    cases rest with
    | nil =>
      have hopen : scanString m = (.none, []) := by rw [scanString, hbody]
      left
      rw [hopen]
      exact ⟨dead_nil, .inl rfl⟩
    | cons q rest =>
      have hclosed : scanString m = (.string (CString.ofBytes body), rest) := by
        rw [scanString, hbody]
      right
      rw [hclosed]
      refine ⟨by simp, by simp, fun x => ?_⟩
      have hne : (stringBody false m).2 ≠ [] := by
        rw [hbody]
        exact List.cons_ne_nil q rest
      rw [scanString, stringBody_append hne, hbody]
      rfl

/-- Only a number may go on with the text. -/
theorem kept_scanNumber (l : List UInt8) : Kept scanNumber l := by
  by_cases hnil : skipNumber l = []
  · left
    refine ⟨?_, .inr (.inr ⟨_, rfl⟩)⟩
    show Dead (skipNumber l)
    rw [hnil]
    exact dead_nil
  · right
    exact ⟨by simp [scanNumber], by simp [scanNumber], scanNumber_append hnil⟩

theorem kept_parseToken (l : List UInt8) : Kept jsonParseToken l := by
  cases hskip : jsonSkipWhitespace l with
  | nil =>
    have hempty : jsonParseToken l = jsonParseToken [] := by
      apply parseToken_congr
      rw [hskip]
      rfl
    left
    rw [hempty]
    exact ⟨dead_nil, .inr (.inl rfl)⟩
  | cons c m =>
    have hspace : isSpace c = false := by
      have hhead := List.head?_dropWhile_not isSpace l
      rw [show l.dropWhile isSpace = c :: m from hskip] at hhead
      exact hhead
    -- the blanks in front do not count
    have happend : ∀ x, jsonParseToken (l ++ x) = jsonParseToken (c :: (m ++ x)) := by
      intro x
      apply parseToken_congr
      unfold jsonSkipWhitespace at hskip ⊢
      rw [List.dropWhile_append, hskip, if_neg (by simp), List.cons_append]
      exact (List.dropWhile_cons_of_neg (by simp [hspace])).symm
    by_cases h123 : c = 123
    · subst h123
      exact (kept_mark (t := .objectStart) (by simp) (by simp) m).of_eq happend
    by_cases h125 : c = 125
    · subst h125
      exact (kept_mark (t := .objectEnd) (by simp) (by simp) m).of_eq happend
    by_cases h91 : c = 91
    · subst h91
      exact (kept_mark (t := .arrayStart) (by simp) (by simp) m).of_eq happend
    by_cases h93 : c = 93
    · subst h93
      exact (kept_mark (t := .arrayEnd) (by simp) (by simp) m).of_eq happend
    by_cases h58 : c = 58
    · subst h58
      exact (kept_mark (t := .colon) (by simp) (by simp) m).of_eq happend
    by_cases h44 : c = 44
    · subst h44
      exact (kept_mark (t := .comma) (by simp) (by simp) m).of_eq happend
    by_cases h34 : c = 34
    · subst h34
      exact (kept_scanString m).of_eq happend
    by_cases h116 : c = 116
    · subst h116
      have hword : Kept (scanWord (ascii "true") (.boolean true)) (116 :: m) :=
        kept_scanWord (by simp) (by simp) rfl
      exact hword.of_eq happend
    by_cases h102 : c = 102
    · subst h102
      have hword : Kept (scanWord (ascii "false") (.boolean false)) (102 :: m) :=
        kept_scanWord (by simp) (by simp) rfl
      exact hword.of_eq happend
    by_cases h110 : c = 110
    · subst h110
      have hword : Kept (scanWord (ascii "null") .null) (110 :: m) :=
        kept_scanWord (by simp) (by simp) rfl
      exact hword.of_eq happend
    -- a number, or a character that starts no token
    have hother := parseToken_other hspace h123 h125 h91 h93 h58 h44 h34 h116 h102 h110
    by_cases hnum : (c == 45 || isDigit c) = true
    · apply (kept_scanNumber (c :: m)).of_eq
      intro x
      rw [happend, hother, if_pos hnum, List.cons_append]
    · have hself : jsonParseToken l = (.none, c :: m) := by
        have h0 := happend []
        rw [List.append_nil, List.append_nil] at h0
        rw [h0, hother, if_neg hnum]
      left
      rw [hself]
      refine ⟨.inl ?_, .inl rfl⟩
      rw [hother, if_neg hnum]

/-- **A token is the same when the text goes on**, unless it ends where the text does: then nothing
can be read behind it. -/
theorem parseToken_append {l r : List UInt8} {t : JsonToken} (h : jsonParseToken l = (t, r)) :
    (Dead r ∧ (t = .none ∨ t = .eof ∨ ∃ s, t = .number s)) ∨
      (t ≠ .none ∧ t ≠ .eof ∧ ∀ x, jsonParseToken (l ++ x) = (t, r ++ x)) := by
  have hkept := kept_parseToken l
  unfold Kept at hkept
  rwa [h] at hkept

/-- The token is read the same whatever comes after it. -/
def endsItself : JsonToken → Bool
  | .none | .eof | .number _ => false
  | _ => true

theorem parseToken_append_of {l r : List UInt8} {t : JsonToken} (h : jsonParseToken l = (t, r))
    (ht : endsItself t = true) (x : List UInt8) : jsonParseToken (l ++ x) = (t, r ++ x) := by
  rcases parseToken_append h with ⟨-, rfl | rfl | ⟨s, rfl⟩⟩ | ⟨-, -, hx⟩
  · exact absurd ht Bool.false_ne_true
  · exact absurd ht Bool.false_ne_true
  · exact absurd ht Bool.false_ne_true
  · exact hx x

theorem dead_or_append {l r : List UInt8} {t : JsonToken} (h : jsonParseToken l = (t, r)) :
    Dead r ∨ ∀ x, jsonParseToken (l ++ x) = (t, r ++ x) :=
  (parseToken_append h).imp And.left fun h => h.2.2

theorem dead_of_parse {l r : List UInt8} {t : JsonToken} (h : jsonParseToken l = (t, r))
    (ht : t = .none ∨ t = .eof) : Dead r := by
  rcases parseToken_append h with ⟨hdead, -⟩ | ⟨hnone, heof, -⟩
  · exact hdead
  · exact (ht.elim hnone heof).elim

/-- Once nothing can be read, nothing more can. -/
theorem Dead.rest {l r : List UInt8} {t : JsonToken} (hl : Dead l) (h : jsonParseToken l = (t, r)) :
    Dead r := by
  rcases parseToken_append h with ⟨hdead, -⟩ | ⟨hnone, heof, -⟩
  · exact hdead
  · exact (hl.ne h hnone heof).elim

/-! ### Parsers and loops -/

section

variable {α β σ : Type}

/-- The parser does the same when the text goes on, unless nothing can be read behind its result. -/
def Stable (f : List UInt8 → Except Failure (α × List UInt8)) : Prop :=
  ∀ l a r, f l = .ok (a, r) → Dead r ∨ ∀ x, f (l ++ x) = .ok (a, r ++ x)

/-- The parser does the same when the text goes on. -/
def Closed (f : List UInt8 → Except Failure (α × List UInt8)) : Prop :=
  ∀ l a r, f l = .ok (a, r) → ∀ x, f (l ++ x) = .ok (a, r ++ x)

theorem Closed.stable {f : List UInt8 → Except Failure (α × List UInt8)} (h : Closed f) :
    Stable f := fun l a r hl => .inr (h l a r hl)

/-- A result behind which a mark follows. -/
theorem Stable.append {f : List UInt8 → Except Failure (α × List UInt8)} (hf : Stable f)
    {l m r : List UInt8} {a : α} {t : JsonToken} (h : f l = .ok (a, m))
    (ht : jsonParseToken m = (t, r)) (hends : endsItself t = true) (x : List UInt8) :
    f (l ++ x) = .ok (a, m ++ x) := by
  rcases hf l a m h with hdead | hext
  · have hnone : t ≠ .none := by
      rintro rfl
      cases hends
    have heof : t ≠ .eof := by
      rintro rfl
      cases hends
    exact (hdead.ne ht hnone heof).elim
  · exact hext x

theorem Closed.map {f : List UInt8 → Except Failure (α × List UInt8)} (h : Closed f) (g : α → β) :
    Closed fun l => (f l).map fun x => (g x.1, x.2) := by
  intro l b r hl x
  dsimp only at hl ⊢
  cases hf : f l with
  | error e =>
    rw [hf] at hl
    cases hl
  | ok y =>
    obtain ⟨a, r'⟩ := y
    rw [hf] at hl
    obtain ⟨rfl, rfl⟩ : g a = b ∧ r' = r := Prod.mk.inj (Except.ok.inj hl)
    rw [h l a r' hf x]
    rfl

/-- **The loop over an object** does the same when the text goes on, with any larger bound. -/
theorem parseMembers_append {member : CString → σ → List UInt8 → Except Failure (σ × List UInt8)}
    (hmember : ∀ key s, Stable (member key s)) {fuel fuel' : Nat} (hle : fuel ≤ fuel') {s s' : σ}
    {l r : List UInt8} (h : parseMembers member fuel s l = .ok (s', r)) (x : List UInt8) :
    parseMembers member fuel' s (l ++ x) = .ok (s', r ++ x) := by
  induction fuel generalizing fuel' s l with
  | zero => cases h
  | succ fuel ih =>
    obtain ⟨fuel', rfl⟩ : ∃ k, fuel' = k + 1 := ⟨fuel' - 1, by omega⟩
    -- every token of a round is a mark or is followed by one, so the round stays the same
    rw [parseMembers] at h ⊢
    split at h
    next l₁ hend =>
      obtain ⟨rfl, rfl⟩ := Prod.mk.inj (Except.ok.inj h)
      rw [parseToken_append_of hend rfl]
    next key l₁ hkey =>
      rw [parseToken_append_of hkey rfl]
      dsimp only
      split at h
      next l₂ hcolon =>
        rw [parseToken_append_of hcolon rfl]
        dsimp only
        split at h
        next s₁ l₃ hok =>
          split at h
          next l₄ hcomma =>
            rw [(hmember key s).append hok hcomma rfl]
            dsimp only
            rw [parseToken_append_of hcomma rfl]
            exact ih (by omega) h
          next l₄ hend =>
            obtain ⟨rfl, rfl⟩ := Prod.mk.inj (Except.ok.inj h)
            rw [(hmember key s).append hok hend rfl]
            dsimp only
            rw [parseToken_append_of hend rfl]
          · cases h
        · cases h
      · cases h
    · cases h

/-- **The loop over an array.** -/
theorem parseElements_append {element : σ → List UInt8 → Except Failure (σ × List UInt8)}
    (helement : ∀ s, Stable (element s)) {fuel fuel' : Nat} (hle : fuel ≤ fuel') {s s' : σ}
    {l r : List UInt8} (h : parseElements element fuel s l = .ok (s', r)) (x : List UInt8) :
    parseElements element fuel' s (l ++ x) = .ok (s', r ++ x) := by
  induction fuel generalizing fuel' s l with
  | zero => cases h
  | succ fuel ih =>
    obtain ⟨fuel', rfl⟩ : ∃ k, fuel' = k + 1 := ⟨fuel' - 1, by omega⟩
    -- as for the members of an object
    rw [parseElements] at h ⊢
    split at h
    next l₁ hend =>
      obtain ⟨rfl, rfl⟩ := Prod.mk.inj (Except.ok.inj h)
      rw [parseToken_append_of hend rfl]
    next l₁ hstart =>
      rw [parseToken_append_of hstart rfl]
      dsimp only
      split at h
      next s₁ l₂ hok =>
        split at h
        next l₃ hcomma =>
          rw [(helement s).append hok hcomma rfl]
          dsimp only
          rw [parseToken_append_of hcomma rfl]
          exact ih (by omega) h
        next l₃ hend =>
          obtain ⟨rfl, rfl⟩ := Prod.mk.inj (Except.ok.inj h)
          rw [(helement s).append hok hend rfl]
          dsimp only
          rw [parseToken_append_of hend rfl]
        · cases h
      · cases h
    · cases h

/-- A loop with a bound that the length of the text gives. -/
theorem closed_parseMembers {member : CString → σ → List UInt8 → Except Failure (σ × List UInt8)}
    (hmember : ∀ key s, Stable (member key s)) (s : σ) :
    Closed fun l => parseMembers member (l.length + 1) s l := by
  intro l a r h x
  exact parseMembers_append hmember (by rw [List.length_append]; omega) h x

theorem closed_parseElements {element : σ → List UInt8 → Except Failure (σ × List UInt8)}
    (helement : ∀ s, Stable (element s)) (s : σ) :
    Closed fun l => parseElements element (l.length + 1) s l := by
  intro l a r h x
  exact parseElements_append helement (by rw [List.length_append]; omega) h x

/-- A parser that goes on after an opening brace. -/
theorem Closed.object {g : List UInt8 → Except Failure (α × List UInt8)} (hg : Closed g) :
    Closed fun l => match jsonParseToken l with
      | (.objectStart, l) => g l
      | _ => invalid := by
  intro l a r h x
  dsimp only at h ⊢
  split at h
  next l₁ hstart =>
    rw [parseToken_append_of hstart rfl]
    exact hg l₁ a r h x
  · cases h

/-- A parser that goes on after an opening bracket. -/
theorem Closed.array {g : List UInt8 → Except Failure (α × List UInt8)} (hg : Closed g) :
    Closed fun l => match jsonParseToken l with
      | (.arrayStart, l) => g l
      | _ => invalid := by
  intro l a r h x
  dsimp only at h ⊢
  split at h
  next l₁ hstart =>
    rw [parseToken_append_of hstart rfl]
    exact hg l₁ a r h x
  · cases h

/-- A value that must be a string. -/
theorem closed_string (g : CString → α) : Closed fun l =>
    match jsonParseToken l with
    | (.string s, l) => .ok (g s, l)
    | _ => invalid := by
  intro l a r h x
  dsimp only at h ⊢
  split at h
  next s l₁ hstring =>
    obtain ⟨rfl, rfl⟩ := Prod.mk.inj (Except.ok.inj h)
    rw [parseToken_append_of hstring rfl]
  · cases h

/-- A value that is one token, whichever it is. -/
theorem stable_token (g : JsonToken → α) :
    Stable fun l => .ok (g (jsonParseToken l).1, (jsonParseToken l).2) := by
  intro l a r h
  obtain ⟨t, l₁, ht⟩ : ∃ t l₁, jsonParseToken l = (t, l₁) := ⟨_, _, rfl⟩
  dsimp only at h ⊢
  rw [ht] at h
  obtain ⟨rfl, rfl⟩ := Prod.mk.inj (Except.ok.inj h)
  apply (dead_or_append ht).imp_right
  intro hext x
  rw [hext]

end

/-! ### Skipped values -/

theorem afterSkipped_append {close : JsonToken} (hclose : endsItself close = true)
    {again again' : List UInt8 → Option (ErrorCode × List UInt8)}
    {v v' : Option (ErrorCode × List UInt8)} {e : ErrorCode} {r x : List UInt8}
    (hagain : ∀ l, again l = some (e, r) → Dead r ∨ again' (l ++ x) = some (e, r ++ x))
    (hv : ∀ e' l, v = some (e', l) → Dead l ∨ v' = some (e', l ++ x))
    (h : afterSkipped close again v = some (e, r)) :
    Dead r ∨ afterSkipped close again' v' = some (e, r ++ x) := by
  rcases afterSkipped_cases h with ⟨he, hvalue⟩ | ⟨l, hvalue, hnext⟩
  · apply (hv _ _ hvalue).imp_right
    intro hv'
    rw [hv', afterSkipped_of_ne he]
  rcases hv _ _ hvalue with hdead | hv'
  · -- at a dead end there is neither a comma nor a closing token
    rcases hnext with ⟨m, hcomma, -⟩ | ⟨-, hend, -⟩ | ⟨t, -, -, ht, -⟩
    · exact (hdead.ne hcomma (by simp) (by simp)).elim
    · exact (hdead.ne hend (by rintro rfl; cases hclose) (by rintro rfl; cases hclose)).elim
    · exact .inl (hdead.rest ht)
  · rw [hv']
    rcases hnext with ⟨m, hcomma, hrest⟩ | ⟨hne, hend, rfl⟩ | ⟨t, hcomma, hend, ht, rfl⟩
    · rw [afterSkipped_comma (parseToken_append_of hcomma rfl x)]
      exact hagain m hrest
    · right
      rw [afterSkipped_close hne (parseToken_append_of hend hclose x)]
    · apply (dead_or_append ht).imp_right
      intro hext
      rw [afterSkipped_other (hext x) hcomma hend]

/-- The same with the token that the value starts with. -/
theorem skip_next_append {fuel fuel' : Nat} {x : List UInt8}
    (ih : ∀ token m e r, jsonSkipTokenValue fuel token m = some (e, r) →
      Dead r ∨ jsonSkipTokenValue fuel' token (m ++ x) = some (e, r ++ x))
    {l r : List UInt8} {e : ErrorCode}
    (h : jsonSkipTokenValue fuel (jsonParseToken l).1 (jsonParseToken l).2 = some (e, r)) :
    Dead r ∨ jsonSkipTokenValue fuel' (jsonParseToken (l ++ x)).1 (jsonParseToken (l ++ x)).2 =
      some (e, r ++ x) := by
  rcases parseToken_append (rfl : jsonParseToken l = (_, (jsonParseToken l).2)) with
    ⟨hdead, hkind⟩ | ⟨-, -, hext⟩
  · -- A value that ends with the text is one token.
    left
    have hone : ∀ t : JsonToken, t = .none ∨ t = .eof ∨ (∃ s, t = .number s) → ∀ m,
        jsonSkipTokenValue fuel t m = some (e, r) → m = r := by
      intro t ht m hm
      cases fuel with
      | zero => cases hm
      | succ fuel =>
        rcases ht with rfl | rfl | ⟨s, rfl⟩ <;> exact (Prod.mk.inj (Option.some.inj hm)).2
    rwa [← hone _ hkind _ h]
  · rw [hext]
    exact ih _ _ _ _ h

/-- **A skipped value** is the same when the text goes on, whether or not it is malformed. -/
theorem jsonSkipTokenValue_append {fuel fuel' : Nat} (hle : fuel ≤ fuel') {token : JsonToken}
    {l r : List UInt8} {e : ErrorCode} (h : jsonSkipTokenValue fuel token l = some (e, r))
    (x : List UInt8) :
    Dead r ∨ jsonSkipTokenValue fuel' token (l ++ x) = some (e, r ++ x) := by
  induction fuel generalizing fuel' token l e r with
  | zero => cases h
  | succ fuel ih =>
    obtain ⟨fuel', rfl⟩ : ∃ k, fuel' = k + 1 := ⟨fuel' - 1, by omega⟩
    have hle' : fuel ≤ fuel' := by omega
    have hnext := @skip_next_append fuel fuel' x fun token m e r hm => ih hle' hm
    cases token
    case objectStart =>
      -- an error code may come from the last token of the text, behind which nothing follows
      rcases object_cases l with ⟨m, hend⟩ | ⟨key, m, m₁, hkey, hcolon⟩ |
        ⟨key, m, t, m₁, hkey, ht, hcolon⟩ | ⟨t, m, ht, hend, hkey⟩
      · rw [skip_object_end hend] at h
        cases h
        rw [skip_object_end (parseToken_append_of hend rfl x)]
        exact .inr rfl
      · rw [skip_member hkey hcolon] at h
        rw [skip_member (parseToken_append_of hkey rfl x) (parseToken_append_of hcolon rfl x)]
        exact afterSkipped_append rfl (fun m hm => ih hle' hm) (fun e' m hm => hnext hm) h
      · rw [skip_noColon hkey ht hcolon] at h
        cases h
        apply (dead_or_append ht).imp_right
        intro hext
        rw [skip_noColon (parseToken_append_of hkey rfl x) (hext x) hcolon]
      · rw [skip_noKey ht hend hkey] at h
        cases h
        apply (dead_or_append ht).imp_right
        intro hext
        rw [skip_noKey (hext x) hend hkey]
    case arrayStart =>
      have hagain : ∀ m, jsonSkipTokenValue fuel .arrayStart m = some (e, r) →
          Dead r ∨ jsonSkipTokenValue fuel' .arrayStart (m ++ x) = some (e, r ++ x) :=
        fun m hm => ih hle' hm
      rcases array_cases l with ⟨m, hend⟩ | ⟨t, m, ht, hout⟩ | ⟨t, m, ht, hitem⟩
      · rw [skip_array_end hend] at h
        cases h
        rw [skip_array_end (parseToken_append_of hend rfl x)]
        exact .inr rfl
      · rw [skip_noItem ht hout] at h
        cases h
        exact .inl (dead_of_parse ht hout.symm)
      rw [skip_item hitem ht] at h
      rcases parseToken_append ht with ⟨hdead, hkind⟩ | ⟨-, -, hext⟩
      · -- a number that ends with the text; the array cannot end behind it
        obtain ⟨n, rfl⟩ : ∃ n, t = .number n := by
          rcases hkind with h | h | h
          · exact (hitem.2.2 h).elim
          · exact (hitem.2.1 h).elim
          · exact h
        have hvalue : ∀ e' m', jsonSkipTokenValue fuel (.number n) m = some (e', m') →
            Dead m' ∨ none = some (e', m' ++ x) := by
          intro e' m' hm
          cases fuel with
          | zero => cases hm
          | succ fuel =>
            rw [← (Prod.mk.inj (Option.some.inj hm)).2]
            exact .inl hdead
        rcases afterSkipped_append rfl hagain hvalue h with hr | hx
        · exact .inl hr
        · cases hx
      · rw [skip_item hitem (hext x)]
        exact afterSkipped_append rfl hagain (fun e' m hm => ih hle' hm) h
    all_goals
      obtain ⟨rfl, rfl⟩ := Prod.mk.inj (Option.some.inj h)
      exact .inr rfl

/-- A value from its first token on. -/
theorem skipNext_append {l r : List UInt8} {e : ErrorCode} (x : List UInt8)
    (h : jsonSkipTokenValue (l.length + 1) (jsonParseToken l).1 (jsonParseToken l).2 =
      some (e, r)) :
    Dead r ∨ jsonSkipTokenValue ((l ++ x).length + 1) (jsonParseToken (l ++ x)).1
      (jsonParseToken (l ++ x)).2 = some (e, r ++ x) := by
  have hle : l.length + 1 ≤ (l ++ x).length + 1 := by
    rw [List.length_append]
    omega
  exact skip_next_append (fun token m e r hm => jsonSkipTokenValue_append hle hm x) h

theorem skipValue_append {l r : List UInt8} (h : skipValue l = .ok r) :
    Dead r ∨ ∀ x, skipValue (l ++ x) = .ok (r ++ x) := by
  by_cases hdead : Dead r
  · exact .inl hdead
  right
  intro x
  unfold skipValue at h ⊢
  split at h
  next e l₁ hskip =>
    obtain rfl := Except.ok.inj h
    rw [(skipNext_append x hskip).resolve_left hdead]
  · cases h

theorem skipValueChecked_append {l r : List UInt8} (h : skipValueChecked l = .ok r) :
    Dead r ∨ ∀ x, skipValueChecked (l ++ x) = .ok (r ++ x) := by
  by_cases hdead : Dead r
  · exact .inl hdead
  right
  intro x
  unfold skipValueChecked at h ⊢
  split at h
  next l₁ hskip =>
    obtain rfl := Except.ok.inj h
    rw [(skipNext_append x hskip).resolve_left hdead]
  · cases h
  · cases h

section

variable {σ : Type}

/-- A skipper as the parser of a value that leaves the state alone. -/
theorem stable_of_skipper {f : List UInt8 → Except Failure (List UInt8)}
    (hf : ∀ {l r}, f l = .ok r → Dead r ∨ ∀ x, f (l ++ x) = .ok (r ++ x)) (s : σ) :
    Stable fun l => (f l).map fun l => (s, l) := by
  intro l a r h
  dsimp only at h ⊢
  cases hl : f l with
  | error e =>
    rw [hl] at h
    cases h
  | ok r' =>
    rw [hl] at h
    obtain ⟨rfl, rfl⟩ : s = a ∧ r' = r := Prod.mk.inj (Except.ok.inj h)
    apply (hf hl).imp_right
    intro hext x
    rw [hext]
    rfl

end

/-! ### Metadata and schemas -/

theorem stable_metadataMember (key : CString) (s : Unit) : Stable (metadataMember key s) :=
  stable_of_skipper skipValue_append s

/-- The metadata, the result of which is the state `s` as it was. -/
theorem closed_metadata {σ : Type} (s : σ) :
    Closed fun l => (jsonParseDatabaseMetadata l).map fun l => (s, l) := by
  have hobject := ((closed_parseMembers stable_metadataMember ()).object).map fun _ => s
  have heq : ∀ l, (jsonParseDatabaseMetadata l).map (fun l => (s, l)) =
      (match jsonParseToken l with
        | (.objectStart, l) => parseMembers metadataMember (l.length + 1) () l
        | _ => invalid).map fun x : Unit × List UInt8 => (s, x.2) := by
    intro l
    unfold jsonParseDatabaseMetadata
    obtain ⟨t, l₁⟩ := jsonParseToken l
    cases t
    case objectStart =>
      dsimp only
      cases parseMembers metadataMember (l₁.length + 1) () l₁ <;> rfl
    all_goals rfl
  intro l a r h x
  exact (heq (l ++ x)).trans (hobject l a r ((heq l).symm.trans h) x)

theorem stable_fieldMember (key : CString) (field : Option CString × FieldType) :
    Stable (fieldMember key field) := by
  intro l a r h
  unfold fieldMember at h ⊢
  split_ifs at h ⊢
  · exact (closed_string fun name => (some name, field.2)).stable l a r h
  · exact (closed_string fun type => (field.1, stringToFieldType type)).stable l a r h
  · exact stable_of_skipper skipValue_append field l a r h

theorem closed_fieldDefinition (fields : List (Option CString × FieldType)) :
    Closed (fieldDefinition fields) :=
  (closed_parseMembers stable_fieldMember (none, .string)).map fun field => fields ++ [field]

theorem stable_schemaMember (key : CString) (draft : SchemaDraft) :
    Stable (schemaMember key draft) := by
  intro l a r h
  have hfields := (closed_parseElements (fun s => (closed_fieldDefinition s).stable)
    draft.fields).map fun fields => { draft with fields }
  unfold schemaMember at h ⊢
  split_ifs at h ⊢
  · exact (closed_string fun name => { draft with name := name.truncate (maxTableName - 1) }).stable
      l a r h
  · exact hfields.array.stable l a r h
  · exact stable_of_skipper skipValue_append draft l a r h

/-- A schema that is accepted starts with a string or ends at once. -/
theorem endsItself_of_schemaLoop {fuel : Nat} {draft draft' : SchemaDraft} {token : JsonToken}
    {l r : List UInt8} (h : schemaLoop fuel draft token l = .ok (draft', r)) :
    endsItself token = true := by
  cases fuel with
  | zero => cases h
  | succ fuel => cases token <;> first | rfl | cases h

/-- **The loop over a schema**, whose first token has been read already. -/
theorem schemaLoop_append {fuel fuel' : Nat} (hle : fuel ≤ fuel') {draft draft' : SchemaDraft}
    {token : JsonToken} {l r : List UInt8} (h : schemaLoop fuel draft token l = .ok (draft', r))
    (x : List UInt8) : schemaLoop fuel' draft token (l ++ x) = .ok (draft', r ++ x) := by
  induction fuel generalizing fuel' draft token l with
  | zero => cases h
  | succ fuel ih =>
    obtain ⟨fuel', rfl⟩ : ∃ k, fuel' = k + 1 := ⟨fuel' - 1, by omega⟩
    -- the loop goes on with a token that must be a string or the end
    have hagain : ∀ {draft l}, schemaLoop fuel draft (jsonParseToken l).1 (jsonParseToken l).2 =
        .ok (draft', r) → schemaLoop fuel' draft (jsonParseToken (l ++ x)).1
          (jsonParseToken (l ++ x)).2 = .ok (draft', r ++ x) := by
      intro draft l hl
      obtain ⟨t, l₁, ht⟩ : ∃ t l₁, jsonParseToken l = (t, l₁) := ⟨_, _, rfl⟩
      rw [ht] at hl
      rw [parseToken_append_of ht (endsItself_of_schemaLoop hl)]
      exact ih (by omega) hl
    cases token
    case objectEnd =>
      obtain ⟨rfl, rfl⟩ := Prod.mk.inj (Except.ok.inj h)
      rfl
    case string key =>
      rw [schemaLoop] at h ⊢
      split at h
      next l₁ hcolon =>
        rw [parseToken_append_of hcolon rfl]
        dsimp only
        split_ifs at h ⊢
        · split at h
          next l₂ hstart =>
            rw [parseToken_append_of hstart rfl]
            exact hagain h
          · cases h
        · split at h
          next draft₁ l₂ hok =>
            have hstable := stable_schemaMember key draft
            split at h
            next l₃ hcomma =>
              rw [hstable.append hok hcomma rfl]
              dsimp only
              rw [parseToken_append_of hcomma rfl]
              exact hagain h
            next l₃ hend =>
              obtain ⟨rfl, rfl⟩ := Prod.mk.inj (Except.ok.inj h)
              rw [hstable.append hok hend rfl]
              dsimp only
              rw [parseToken_append_of hend rfl]
            · cases h
          · cases h
      · cases h
    all_goals cases h

theorem schemaStart_append {l r : List UInt8} {t : JsonToken} (h : schemaStart l = (t, r))
    (ht : endsItself t = true) (x : List UInt8) : schemaStart (l ++ x) = (t, r ++ x) := by
  unfold schemaStart at h ⊢
  split at h
  next l₁ hstart =>
    rw [parseToken_append_of hstart rfl]
    exact parseToken_append_of h ht x
  next hne =>
    rw [parseToken_append_of h ht]
    split
    next heq => exact (hne r (h.trans (by rw [(Prod.mk.inj heq).1]))).elim
    · rfl

theorem closed_tableSchema (db : Database) : Closed (jsonParseTableSchema db) := by
  intro l db' r h x
  unfold jsonParseTableSchema at h ⊢
  obtain ⟨t, l₁, ht⟩ : ∃ t l₁, schemaStart l = (t, l₁) := ⟨_, _, rfl⟩
  rw [ht] at h
  split at h
  · cases h
  next draft l₂ hok =>
    have hlen : l.length + 1 ≤ (l ++ x).length + 1 := by
      rw [List.length_append]
      omega
    rw [schemaStart_append ht (endsItself_of_schemaLoop hok), schemaLoop_append hlen hok]
    dsimp only
    split_ifs at h ⊢ with hdraft
    · split at h
      next db₁ hadd =>
        obtain ⟨rfl, rfl⟩ := Prod.mk.inj (Except.ok.inj h)
        rfl
      · cases h
    · cases h

/-! ### Records -/

variable (p : Platform)

/-- A field value is read from one token. -/
theorem parseFieldValue_of_token (type : FieldType) {l r : List UInt8} {t : JsonToken}
    (h : jsonParseToken l = (t, r)) : jsonParseFieldValue p type l =
      (if t = .null then .null else type, if t = .null then .zero else tokenValue p type t, r) := by
  unfold jsonParseFieldValue
  rw [h]
  cases t <;> rfl

theorem stable_recordField (columns : List Column) (key : CString) (values : List Field) :
    Stable (recordField p columns key values) := by
  intro l a r h
  unfold recordField at h ⊢
  cases hj : columnIndex columns key with
  | none =>
    rw [hj] at h
    exact stable_token (fun _ => values) l a r h
  | some j =>
    obtain ⟨t, l₁, ht⟩ : ∃ t l₁, jsonParseToken l = (t, l₁) := ⟨_, _, rfl⟩
    rw [hj] at h
    dsimp only at h ⊢
    rw [parseFieldValue_of_token p _ ht] at h
    obtain ⟨rfl, rfl⟩ := Prod.mk.inj (Except.ok.inj h)
    apply (dead_or_append ht).imp_right
    intro hext x
    rw [parseFieldValue_of_token p _ (hext x)]

theorem stable_recordMember (columns : List Column) (key : CString) (draft : RecordDraft) :
    Stable (recordMember p columns key draft) := by
  intro l a r h
  have hfields := (closed_parseMembers (stable_recordField p columns) draft.values).map
    fun values => { draft with values }
  unfold recordMember at h ⊢
  split_ifs at h ⊢
  · obtain ⟨t, l₁, ht⟩ : ∃ t l₁, jsonParseToken l = (t, l₁) := ⟨_, _, rfl⟩
    rw [ht] at h
    have hrest : l₁ = r := by
      cases t <;> exact (Prod.mk.inj (Except.ok.inj h)).2
    subst hrest
    apply (dead_or_append ht).imp_right
    intro hext x
    rw [hext]
    cases t <;> rw [← (Prod.mk.inj (Except.ok.inj h)).1]
  · exact hfields.object.stable l a r h
  · exact stable_of_skipper skipValue_append draft l a r h

theorem closed_recordElement (i : Nat) (columns : List Column) (s : Store) :
    Closed (recordElement p i columns s) := by
  intro l a r h x
  have hmembers := closed_parseMembers (stable_recordMember p columns) ⟨-1, initialValues columns⟩
  unfold recordElement at h ⊢
  split at h
  · cases h
  next draft l₁ hok =>
    have hext : parseMembers (recordMember p columns) ((l ++ x).length + 1)
        ⟨-1, initialValues columns⟩ (l ++ x) = .ok (draft, l₁ ++ x) := hmembers l draft l₁ hok x
    rw [hext]
    dsimp only
    cases hinsert : insertDraft p i columns draft s with
    | error e =>
      rw [hinsert] at h
      cases h
    | ok s' =>
      rw [hinsert] at h
      obtain ⟨rfl, rfl⟩ : s' = a ∧ l₁ = r := Prod.mk.inj (Except.ok.inj h)
      rfl

theorem closed_tableRecords (i : Nat) (s : Store) : Closed (jsonParseTableRecords p i s) := by
  intro l a r h x
  unfold jsonParseTableRecords at h ⊢
  cases ht : s.db.tables[i]? with
  | none =>
    rw [ht] at h
    cases h
  | some t =>
    rw [ht] at h
    exact (closed_parseElements (fun s => (closed_recordElement p i t.columns s).stable) s).array
      l a r h x

/-! ### Tables and the whole file -/

theorem stable_siblingMember (i : Nat) (key : CString) (s : Store) :
    Stable (siblingMember p i key s) := by
  intro l a r h
  unfold siblingMember at h ⊢
  split_ifs at h ⊢
  · exact (closed_tableRecords p i s).stable l a r h
  · exact stable_of_skipper skipValueChecked_append s l a r h

/-- The loop over the keys beside a schema cannot end where nothing can be read. -/
theorem siblingLoop_dead (i : Nat) {fuel : Nat} {s : Store} {l : List UInt8} (hdead : Dead l)
    {y : Store × List UInt8} : siblingLoop p i fuel s l ≠ .ok y := by
  cases fuel with
  | zero => simp [siblingLoop]
  | succ fuel =>
    rw [siblingLoop]
    split
    next hend => exact (hdead.ne hend (by simp) (by simp)).elim
    next hcomma => exact (hdead.ne hcomma (by simp) (by simp)).elim
    · simp [invalid]

/-- **The loop over the keys beside a schema.** -/
theorem siblingLoop_append (i : Nat) {fuel fuel' : Nat} (hle : fuel ≤ fuel') {s s' : Store}
    {l r : List UInt8} (h : siblingLoop p i fuel s l = .ok (s', r)) (x : List UInt8) :
    siblingLoop p i fuel' s (l ++ x) = .ok (s', r ++ x) := by
  induction fuel generalizing fuel' s l with
  | zero => cases h
  | succ fuel ih =>
    obtain ⟨fuel', rfl⟩ : ∃ k, fuel' = k + 1 := ⟨fuel' - 1, by omega⟩
    rw [siblingLoop] at h ⊢
    split at h
    next l₁ hend =>
      obtain ⟨rfl, rfl⟩ := Prod.mk.inj (Except.ok.inj h)
      rw [parseToken_append_of hend rfl]
    next l₁ hcomma =>
      rw [parseToken_append_of hcomma rfl]
      dsimp only
      split at h
      next key l₂ hkey =>
        rw [parseToken_append_of hkey rfl]
        dsimp only
        split at h
        next l₃ hcolon =>
          rw [parseToken_append_of hcolon rfl]
          dsimp only
          split at h
          next s₁ l₄ hok =>
            -- a value that ends with the text leaves the loop without its closing brace
            rcases stable_siblingMember p i key s l₃ s₁ l₄ hok with hdead | hext
            · exact absurd h (siblingLoop_dead p i hdead)
            · rw [hext]
              exact ih (by omega) h
          · cases h
        · cases h
      · cases h
    · cases h

theorem afterOuterTable_append {s s' : Store} {a : AfterTable} {l r : List UInt8}
    (h : afterOuterTable s l = .ok (a, s', r)) (x : List UInt8) :
    afterOuterTable s (l ++ x) = .ok (a, s', r ++ x) := by
  unfold afterOuterTable at h ⊢
  split at h
  next l₁ hcomma =>
    cases h
    rw [parseToken_append_of hcomma rfl]
  next l₁ hend =>
    cases h
    rw [parseToken_append_of hend rfl]
  · cases h

/-- What stands beside a schema. -/
theorem tableSiblings_append {i : Nat} {key : CString} {s s' : Store} {after : AfterTable}
    {l r : List UInt8} (h : tableSiblings p i key s l = .ok (after, s', r)) (x : List UInt8) :
    tableSiblings p i key s (l ++ x) = .ok (after, s', r ++ x) := by
  unfold tableSiblings at h ⊢
  split at h
  · cases h
  next s₁ l₁ hvalue =>
    split at h
    · cases h
    next s₂ l₂ hloop =>
      rcases stable_siblingMember p i key s l s₁ l₁ hvalue with hdead | hext
      · exact absurd hloop (siblingLoop_dead p i hdead)
      · have hlen : l₁.length + 1 ≤ (l₁ ++ x).length + 1 := by
          rw [List.length_append]
          omega
        rw [hext]
        dsimp only
        rw [siblingLoop_append p i hlen hloop]
        exact afterOuterTable_append h x

/-- **A table** is the same when the text goes on. -/
theorem parseTable_append {s s' : Store} {a : AfterTable} {l r : List UInt8}
    (h : parseTable p s l = .ok (a, s', r)) (x : List UInt8) :
    parseTable p s (l ++ x) = .ok (a, s', r ++ x) := by
  unfold parseTable at h ⊢
  split at h
  · cases h
  next db l₁ hschema =>
    rw [closed_tableSchema s.db l db l₁ hschema x]
    dsimp only at h ⊢
    split at h
    next l₂ hend =>
      cases h
      rw [parseToken_append_of hend rfl]
    next l₂ hend =>
      rw [parseToken_append_of hend rfl]
      exact afterOuterTable_append h x
    next l₂ hcomma =>
      rw [parseToken_append_of hcomma rfl]
      dsimp only
      split at h
      next l₃ hstart =>
        cases h
        rw [parseToken_append_of hstart rfl]
      next l₃ hend =>
        cases h
        rw [parseToken_append_of hend rfl]
      next key l₃ hkey =>
        rw [parseToken_append_of hkey rfl]
        dsimp only
        split at h
        next l₄ hcolon =>
          rw [parseToken_append_of hcolon rfl]
          exact tableSiblings_append p h x
        · cases h
      · cases h
    · cases h

/-- **The loop over the tables.** -/
theorem tablesLoop_append {fuel fuel' : Nat} (hle : fuel ≤ fuel') {started : Bool} {s s' : Store}
    {l r : List UInt8} (h : tablesLoop p fuel started s l = .ok (s', r)) (x : List UInt8) :
    tablesLoop p fuel' started s (l ++ x) = .ok (s', r ++ x) := by
  induction fuel generalizing fuel' started s l with
  | zero => cases h
  | succ fuel ih =>
    obtain ⟨fuel', rfl⟩ : ∃ k, fuel' = k + 1 := ⟨fuel' - 1, by omega⟩
    have hle' : fuel ≤ fuel' := by omega
    have hround : ∀ {l₁ : List UInt8}, tableRound p fuel s l₁ = .ok (s', r) →
        tableRound p fuel' s (l₁ ++ x) = .ok (s', r ++ x) := by
      intro l₁ h
      unfold tableRound at h ⊢
      split at h
      · cases h
      next s₁ l₂ hok =>
        rw [parseTable_append p hok x]
        cases h
        rfl
      next s₁ l₂ hok =>
        rw [parseTable_append p hok x]
        exact ih hle' h
      next s₁ l₂ hok =>
        rw [parseTable_append p hok x]
        exact ih hle' h
    cases started with
    | true => exact hround h
    | false =>
      obtain ⟨t, l₁, ht⟩ : ∃ t l₁, jsonParseToken l = (t, l₁) := ⟨_, _, rfl⟩
      by_cases hopen : t = .objectStart
      · subst hopen
        rw [tablesLoop_open p ht] at h
        rw [tablesLoop_open p (parseToken_append_of ht rfl x)]
        exact hround h
      · by_cases hend : t = .arrayEnd
        · subst hend
          rw [tablesLoop_close p ht] at h
          rw [tablesLoop_close p (parseToken_append_of ht rfl x)]
          cases h
          rfl
        · rw [tablesLoop_invalid p ht hopen hend] at h
          cases h

theorem stable_topMember (key : CString) (s : Store) : Stable (topMember p key s) := by
  intro l a r h
  have htables : Closed fun l => tablesLoop p (l.length + 1) false s l := by
    intro l a r h x
    exact tablesLoop_append p (by rw [List.length_append]; omega) h x
  unfold topMember at h ⊢
  split_ifs at h ⊢
  · exact (closed_metadata s).stable l a r h
  · exact htables.array.stable l a r h
  · exact stable_of_skipper skipValueChecked_append s l a r h

/-- **What is accepted is read the same when the text goes on**, with what comes after it left over.
-/
theorem accepted_append {counter : Int} {s : Store} {l : List UInt8}
    (h : dbLoadFromFile p counter (some l) = some (some s)) (x : List UInt8) :
    ∃ l₁ r, jsonParseToken (l ++ x) = (.objectStart, l₁) ∧
      parseMembers (topMember p) (l₁.length + 1) ⟨dbCreate, counter⟩ l₁ = .ok (s, r ++ x) := by
  obtain ⟨l₁, r, hstart, hok⟩ := loadContent_eq_ok (loadContent_of_load h).2
  refine ⟨l₁ ++ x, r, parseToken_append_of hstart rfl x, ?_⟩
  exact closed_parseMembers (stable_topMember p) ⟨dbCreate, counter⟩ l₁ s r hok x

end Luminix
