import Luminix.Json.Escape
import Luminix.Json.Token
import Luminix.Machine.TokenReader
import Mathlib.Tactic.SplitIfs

/-!
# The tokens of a text

`Lexes text toks` says that the scanner reads the tokens `toks` off `text`, whatever follows it.  A
text that ends in a number is *open*: the next character must not belong to a number.  Lexing
composes (`Lexes.append`), so a text that is written piece by piece is read piece by piece.
-/

namespace Luminix

open CLib TokenReader

/-! ### Parts of a number -/

theorem skipMinus_of_ne {c : UInt8} (h : c ≠ 45) (l : List UInt8) : skipMinus (c :: l) = c :: l := by
  unfold skipMinus
  split
  · simp_all
  · rfl

theorem skipSign_of_ne {c : UInt8} (hplus : c ≠ 43) (hminus : c ≠ 45) (l : List UInt8) :
    skipSign (c :: l) = c :: l := by
  unfold skipSign
  split
  · simp_all
  · simp_all
  · rfl

theorem skipDecimals_of_ne {c : UInt8} (h : c ≠ 46) (l : List UInt8) :
    skipDecimals (c :: l) = c :: l := by
  unfold skipDecimals
  split
  · simp_all
  · rfl

theorem skipExponent_of_ne {c : UInt8} (hlow : c ≠ 101) (hupp : c ≠ 69) (l : List UInt8) :
    skipExponent (c :: l) = c :: l := by
  unfold skipExponent
  split
  · simp_all
  · simp_all
  · rfl

/-! ### Suffixes -/

/-- The text from the closing quote on is the end of the text. -/
theorem stringBody_suffix (e : Bool) (l : List UInt8) : (stringBody e l).2 <:+ l := by
  induction l generalizing e with
  | nil => cases e <;> exact List.suffix_refl _
  | cons c l ih =>
    cases e with
    | true =>
      rw [stringBody]
      exact (ih false).trans (List.suffix_cons c l)
    | false =>
      rw [stringBody]
      split_ifs
      · exact List.suffix_refl _
      · exact (ih _).trans (List.suffix_cons c l)

theorem skipDigits_suffix (l : List UInt8) : skipDigits l <:+ l := List.dropWhile_suffix _

theorem skipMinus_suffix (l : List UInt8) : skipMinus l <:+ l := by
  unfold skipMinus
  split
  · exact List.suffix_cons _ _
  · exact List.suffix_refl _

theorem skipSign_suffix (l : List UInt8) : skipSign l <:+ l := by
  unfold skipSign
  split
  · exact List.suffix_cons _ _
  · exact List.suffix_cons _ _
  · exact List.suffix_refl _

theorem skipDecimals_suffix (l : List UInt8) : skipDecimals l <:+ l := by
  unfold skipDecimals
  split
  · exact (skipDigits_suffix _).trans (List.suffix_cons _ _)
  · exact List.suffix_refl _

theorem skipExponent_suffix (l : List UInt8) : skipExponent l <:+ l := by
  have hdigits : ∀ l, skipDigits (skipSign l) <:+ l := fun l =>
    (skipDigits_suffix _).trans (skipSign_suffix l)
  unfold skipExponent
  split
  · exact (hdigits _).trans (List.suffix_cons _ _)
  · exact (hdigits _).trans (List.suffix_cons _ _)
  · exact List.suffix_refl _

/-- Behind the digits of a number. -/
theorem skipNumber_suffix_skipDigits (l : List UInt8) :
    skipNumber l <:+ skipDigits (skipMinus l) :=
  (skipExponent_suffix _).trans (skipDecimals_suffix _)

/-- What a number is followed by is the end of the text. -/
theorem skipNumber_suffix (l : List UInt8) : skipNumber l <:+ l :=
  (skipNumber_suffix_skipDigits l).trans ((skipDigits_suffix _).trans (skipMinus_suffix l))

theorem scanWord_suffix (word : List UInt8) (t : JsonToken) (l : List UInt8) :
    (scanWord word t l).2 <:+ l := by
  unfold scanWord jsonMatchString
  by_cases h : word.isPrefixOf l = true
  · rw [if_pos h]
    exact List.drop_suffix _ _
  · rw [if_neg h]

theorem scanString_suffix (l : List UInt8) : (scanString l).2 <:+ l := by
  have hbody := stringBody_suffix false l
  unfold scanString
  rcases hb : stringBody false l with ⟨body, _ | ⟨c, rest⟩⟩
  · exact List.nil_suffix
  · rw [hb] at hbody
    exact (List.suffix_cons c rest).trans hbody

/-- **The position never leaves the text**: what is left after a token is the end of what was left
before it. -/
theorem parseToken_suffix (l : List UInt8) : (jsonParseToken l).2 <:+ l := by
  have hblanks : jsonSkipWhitespace l <:+ l := List.dropWhile_suffix isSpace
  apply List.IsSuffix.trans _ hblanks
  unfold jsonParseToken
  split
  next h => exact h ▸ List.suffix_refl _
  all_goals
    rename_i h
    rw [h]
  case h_8 => exact (scanString_suffix _).trans (List.suffix_cons _ _)
  case h_9 => exact scanWord_suffix _ _ _
  case h_10 => exact scanWord_suffix _ _ _
  case h_11 => exact scanWord_suffix _ _ _
  case h_12 =>
    split_ifs
    · exact skipNumber_suffix _
    · exact List.suffix_refl _
  all_goals exact List.suffix_cons _ _

/-! ### Progress -/

/-- A number has a first character. -/
theorem length_skipNumber_lt {c : UInt8} {l : List UInt8} (h : (c == 45 || isDigit c) = true) :
    (skipNumber (c :: l)).length < (c :: l).length := by
  have htail : (skipNumber (c :: l)).length ≤ (skipDigits (skipMinus (c :: l))).length :=
    (skipNumber_suffix_skipDigits _).length_le
  apply Nat.lt_of_le_of_lt htail
  by_cases hc : c = 45
  · subst hc
    exact Nat.lt_succ_of_le (skipDigits_suffix l).length_le
  · have hd : isDigit c = true := by simpa [hc] using h
    rw [skipMinus_of_ne hc, skipDigits, List.dropWhile_cons_of_pos hd]
    exact Nat.lt_succ_of_le (skipDigits_suffix l).length_le

/-- A scan result that moved on, or that is the bad token. -/
def Advances (l : List UInt8) (r : JsonToken × List UInt8) : Prop :=
  r.2.length < l.length ∨ (r.1 = .none ∧ r.2.length ≤ l.length)

theorem advances_scanWord {word : List UInt8} (hword : word ≠ []) (t : JsonToken)
    (l : List UInt8) : Advances l (scanWord word t l) := by
  unfold scanWord jsonMatchString
  by_cases h : word.isPrefixOf l = true
  · left
    have hlen := (List.isPrefixOf_iff_prefix.mp h).length_le
    have hpos := List.length_pos_of_ne_nil hword
    rw [if_pos h]
    show (l.drop word.length).length < l.length
    rw [List.length_drop]
    omega
  · right
    rw [if_neg h]
    exact ⟨rfl, Nat.le_refl _⟩

theorem advances_scanString (l : List UInt8) : Advances (34 :: l) (scanString l) := by
  have hlen := (stringBody_suffix false l).length_le
  unfold scanString
  rcases hb : stringBody false l with ⟨body, _ | ⟨c, rest⟩⟩
  · right
    exact ⟨rfl, Nat.zero_le _⟩
  · left
    rw [hb] at hlen
    show rest.length < l.length + 1
    simp only [List.length_cons] at hlen
    omega

/-- **Reading a token moves on**, unless it is the end of the text or cannot be read. -/
theorem advances_parseToken (l : List UInt8) :
    (jsonParseToken l).1 = .eof ∧ (jsonParseToken l).2 = [] ∨ Advances l (jsonParseToken l) := by
  have hskip : (jsonSkipWhitespace l).length ≤ l.length := (List.dropWhile_suffix _).length_le
  have hmono : ∀ {m : List UInt8} {r : JsonToken × List UInt8}, m.length ≤ l.length →
      Advances m r → Advances l r := by
    intro m r hm h
    exact h.imp (fun h => h.trans_le hm) fun h => ⟨h.1, h.2.trans hm⟩
  unfold jsonParseToken
  split
  next h => exact .inl ⟨rfl, rfl⟩
  all_goals
    rename_i h
    rw [h] at hskip
    right
    apply hmono hskip
  case h_8 => exact advances_scanString _
  case h_9 => exact advances_scanWord (by decide) _ _
  case h_10 => exact advances_scanWord (by decide) _ _
  case h_11 => exact advances_scanWord (by decide) _ _
  case h_12 =>
    split_ifs with hnum
    · exact .inl (length_skipNumber_lt hnum)
    · exact .inr ⟨rfl, Nat.le_refl _⟩
  all_goals exact .inl (Nat.lt_succ_self _)

/-! ### Strings -/

/-- The text can stand between quotes: read from the state `escaped`, no quote ends it early, and it
does not end within an escape. -/
def quotable : (escaped : Bool) → List UInt8 → Bool
  | escaped, [] => !escaped
  | true, _ :: l => quotable false l
  | false, c :: l => c != 34 && quotable (c == 92) l

theorem stringBody_of_quotable {e : Bool} {l : List UInt8} (h : quotable e l = true)
    (r : List UInt8) : stringBody e (l ++ 34 :: r) = (l, 34 :: r) := by
  induction l generalizing e with
  | nil =>
    cases e with
    | true => simp [quotable] at h
    | false => rfl
  | cons c l ih =>
    cases e with
    | true =>
      rw [quotable] at h
      rw [List.cons_append, stringBody, ih h]
    | false =>
      rw [quotable, Bool.and_eq_true, bne_iff_ne] at h
      rw [List.cons_append, stringBody, if_neg h.1, ih h.2]

/-- A quoted text is a string token. -/
theorem parseToken_quoted {l : List UInt8} (h : quotable false l = true) (r : List UInt8) :
    jsonParseToken (34 :: (l ++ 34 :: r)) = (.string (CString.ofBytes l), r) := by
  show scanString (l ++ 34 :: r) = _
  rw [scanString, stringBody_of_quotable h]

theorem quotable_cons {c : UInt8} (h34 : c ≠ 34) (h92 : c ≠ 92) (l : List UInt8) :
    quotable false (c :: l) = quotable false l := by
  rw [quotable, beq_eq_false_iff_ne.mpr h92, bne_iff_ne.mpr h34, Bool.true_and]

theorem quotable_of_plain {l : List UInt8} (h : Plain l) : quotable false l = true := by
  induction l with
  | nil => rfl
  | cons c l ih =>
    have hc := h c List.mem_cons_self
    rw [isPlainByte, Bool.and_eq_true, Bool.and_eq_true, bne_iff_ne, bne_iff_ne] at hc
    rw [quotable_cons hc.1.2 hc.2]
    exact ih fun d hd => h d (List.mem_cons_of_mem c hd)

/-- An escape leads back to the state it starts in. -/
theorem quotable_escapeByte (c : UInt8) (l : List UInt8) :
    quotable false (escapeByte c ++ l) = quotable false l := by
  have hhex : ∀ n < 16, hexDigit n ≠ 34 ∧ hexDigit n ≠ 92 := by decide
  unfold escapeByte
  split
  case h_8 d h34 h92 _ _ _ _ _ =>
    split_ifs with hlt
    · obtain ⟨h1, h1'⟩ := hhex (c.toNat / 16) (by have := c.toNat_lt; omega)
      obtain ⟨h2, h2'⟩ := hhex (c.toNat % 16) (by omega)
      show quotable false (hexDigit (c.toNat / 16) :: hexDigit (c.toNat % 16) :: l) = _
      rw [quotable_cons h1 h1', quotable_cons h2 h2']
    · exact quotable_cons h34 h92 l
  all_goals rfl

theorem quotable_escaped (l : List UInt8) : quotable false (l.flatMap escapeByte) = true := by
  induction l with
  | nil => rfl
  | cons c l ih => rw [List.flatMap_cons, quotable_escapeByte, ih]

/-! ### Texts with a quote in them -/

/-- No token starts with the character. -/
def startsNoToken (c : UInt8) : Bool :=
  !isSpace c && !isDigit c && !(ascii "\x7b\x7d[]:,\"tfn-").contains c

theorem parseToken_of_startsNoToken {c : UInt8} (h : startsNoToken c = true) (r : List UInt8) :
    jsonParseToken (c :: r) = (.none, c :: r) := by
  have hspace : isSpace c = false := by
    simp only [startsNoToken, Bool.and_eq_true, Bool.not_eq_true'] at h
    exact h.1.1
  have hskip : jsonSkipWhitespace (c :: r) = c :: r :=
    List.dropWhile_cons_of_neg (by rw [hspace]; exact Bool.false_ne_true)
  -- The character is none of those the scanner knows.
  have hne : ∀ {d : UInt8} {l : List UInt8}, c :: r = d :: l → startsNoToken d ≠ true → False := by
    intro d l hcons hd
    obtain ⟨rfl, -⟩ := List.cons.inj hcons
    exact hd h
  unfold jsonParseToken
  rw [hskip]
  split
  case h_12 d l _ _ _ _ _ _ _ _ _ _ hcons =>
    obtain ⟨rfl, rfl⟩ := List.cons.inj hcons
    rw [if_neg]
    intro hnum
    rcases Bool.or_eq_true_iff.mp hnum with h45 | hdigit
    · rw [beq_iff_eq.mp h45] at h
      exact absurd h (by decide)
    · simp [startsNoToken, hdigit] at h
  next hnil => exact absurd hnil (List.cons_ne_nil c r)
  all_goals
    rename_i hcons
    exact (hne hcons (by decide)).elim

/-- Between quotes the text ends early, at a quote of its own, and no token follows there. -/
def breaksOff (l : List UInt8) : Bool :=
  match (stringBody false l).2 with
  | _ :: c :: _ => startsNoToken c
  | _ => false

theorem stringBody_append {e : Bool} {l r : List UInt8} (h : (stringBody e l).2 ≠ []) :
    stringBody e (l ++ r) = ((stringBody e l).1, (stringBody e l).2 ++ r) := by
  induction l generalizing e with
  | nil => cases e <;> exact absurd rfl h
  | cons c l ih =>
    cases e with
    | true =>
      rw [stringBody] at h
      rw [List.cons_append, stringBody, stringBody, ih h]
    | false =>
      rw [stringBody] at h
      rw [List.cons_append, stringBody, stringBody]
      split_ifs at h ⊢ with hc
      · rfl
      · rw [ih h]

/-- A text that breaks off is read as the string before its quote, and then not at all. -/
theorem parseToken_breaksOff {l : List UInt8} (h : breaksOff l = true) (r : List UInt8) :
    ∃ l₁, jsonParseToken (34 :: (l ++ r)) = (.string (CString.ofBytes (stringBody false l).1), l₁) ∧
      jsonParseToken l₁ = (.none, l₁) := by
  unfold breaksOff at h
  split at h
  next q c rest hrest =>
    have happend : stringBody false (l ++ r) = ((stringBody false l).1, q :: c :: (rest ++ r)) := by
      rw [stringBody_append (by rw [hrest]; exact List.cons_ne_nil _ _), hrest]
      rfl
    refine ⟨c :: (rest ++ r), ?_, parseToken_of_startsNoToken h _⟩
    show scanString (l ++ r) = _
    rw [scanString, happend]
  · exact absurd h Bool.false_ne_true

/-! ### Numbers -/

/-- The characters that may go on a number. -/
def isNumberByte (c : UInt8) : Bool := isDigit c || c == 46 || c == 101 || c == 69

/-- A number ends before this text. -/
def EndsNumber (r : List UInt8) : Prop := ∀ c ∈ r.head?, isNumberByte c = false

/-- The decimal part of a number, if there is one. -/
def IsDecimals (l : List UInt8) : Prop := l = [] ∨ ∃ ds, (∀ c ∈ ds, isDigit c = true) ∧ l = 46 :: ds

/-- Digits and decimals, with a minus sign or at least one digit. -/
def IsNumber (n : List UInt8) : Prop :=
  ∃ ds frac, (∀ c ∈ ds, isDigit c = true) ∧ IsDecimals frac ∧
    (n = 45 :: (ds ++ frac) ∨ (ds ≠ [] ∧ n = ds ++ frac))

theorem dropWhile_isDigit {ds : List UInt8} (hds : ∀ c ∈ ds, isDigit c = true) {r : List UInt8}
    (hr : ∀ c ∈ r.head?, isDigit c = false) : (ds ++ r).dropWhile isDigit = r := by
  induction ds with
  | nil =>
    cases r with
    | nil => rfl
    | cons c r => exact List.dropWhile_cons_of_neg (by simpa using hr c rfl)
  | cons c ds ih =>
    rw [List.cons_append, List.dropWhile_cons_of_pos (hds c List.mem_cons_self)]
    exact ih fun d hd => hds d (List.mem_cons_of_mem c hd)

theorem endsNumber_nil : EndsNumber [] := fun _ hc => absurd hc (by simp)

theorem endsNumber_cons {c : UInt8} (hc : isNumberByte c = false) (l : List UInt8) :
    EndsNumber (c :: l) := by
  intro d hd
  obtain rfl : c = d := Option.some.inj hd
  exact hc

theorem IsDecimals.take {frac : List UInt8} (h : IsDecimals frac) (m : Nat) :
    IsDecimals (frac.take m) := by
  rcases h with rfl | ⟨ds, hds, rfl⟩
  · exact .inl List.take_nil
  · cases m with
    | zero => exact .inl rfl
    | succ m => exact .inr ⟨ds.take m, fun c hc => hds c (List.mem_of_mem_take hc), rfl⟩

theorem EndsNumber.not_digit {r : List UInt8} (h : EndsNumber r) :
    ∀ c ∈ r.head?, isDigit c = false := by
  intro c hc
  have := h c hc
  simp only [isNumberByte, Bool.or_eq_false_iff] at this
  exact this.1.1.1

theorem EndsNumber.skip_eq {r : List UInt8} (h : EndsNumber r) :
    skipDecimals r = r ∧ skipExponent r = r := by
  cases r with
  | nil => exact ⟨rfl, rfl⟩
  | cons c r =>
    have hc := h c rfl
    simp only [isNumberByte, Bool.or_eq_false_iff, beq_eq_false_iff_ne] at hc
    obtain ⟨⟨⟨-, h46⟩, h101⟩, h69⟩ := hc
    exact ⟨skipDecimals_of_ne h46 r, skipExponent_of_ne h101 h69 r⟩

/-- A number is read to its end. -/
theorem skipNumber_append {n r : List UInt8} (hn : IsNumber n) (hr : EndsNumber r) :
    skipNumber (n ++ r) = r := by
  obtain ⟨ds, frac, hds, hfrac, hn⟩ := hn
  have hrest : skipExponent (skipDecimals (skipDigits (ds ++ (frac ++ r)))) = r := by
    rcases hfrac with rfl | ⟨ds', hds', rfl⟩
    · rw [List.nil_append, skipDigits, dropWhile_isDigit hds hr.not_digit, hr.skip_eq.1, hr.skip_eq.2]
    · have hpoint : skipDigits (ds ++ (46 :: ds' ++ r)) = 46 :: (ds' ++ r) :=
        dropWhile_isDigit hds fun c hc => by
          obtain rfl : 46 = c := by simpa using hc
          rfl
      rw [hpoint]
      show skipExponent (skipDigits (ds' ++ r)) = r
      rw [skipDigits, dropWhile_isDigit hds' hr.not_digit, hr.skip_eq.2]
  rcases hn with rfl | ⟨hne, rfl⟩
  · rw [List.cons_append, List.append_assoc]
    exact hrest
  · obtain ⟨d, ds', rfl⟩ := List.exists_cons_of_ne_nil hne
    have hd := hds d List.mem_cons_self
    have hminus : skipMinus (d :: ds' ++ frac ++ r) = d :: ds' ++ frac ++ r := by
      apply skipMinus_of_ne
      rintro rfl
      exact absurd hd (by decide)
    rw [skipNumber, hminus, List.append_assoc]
    exact hrest

/-- A minus sign or a digit is neither blank nor the start of another token. -/
theorem parseToken_of_numberStart {c : UInt8} (hc : c = 45 ∨ isDigit c = true) (l : List UInt8) :
    jsonParseToken (c :: l) = scanNumber (c :: l) := by
  rcases hc with rfl | hc
  · rfl
  · have hmem : c.toNat ∈ List.range' 48 10 := by
      simp only [isDigit, Bool.and_eq_true, decide_eq_true_eq, UInt8.le_iff_toNat_le] at hc
      rw [List.mem_range'_1]
      exact ⟨hc.1, Nat.lt_succ_of_le hc.2⟩
    have hcases : ∀ m ∈ List.range' 48 10, jsonParseToken (UInt8.ofNat m :: l) =
        scanNumber (UInt8.ofNat m :: l) := by
      simp only [List.range', List.forall_mem_cons, List.not_mem_nil, false_implies, implies_true,
        and_true]
      refine ⟨?_, ?_, ?_, ?_, ?_, ?_, ?_, ?_, ?_, ?_⟩ <;> rfl
    simpa using hcases c.toNat hmem

/-- What is skipped is the text of the token. -/
theorem scanNumber_of_skipNumber {n r : List UInt8} (h : skipNumber (n ++ r) = r) :
    scanNumber (n ++ r) = (.number (CString.ofBytes n), r) := by
  rw [scanNumber, h, List.length_append, Nat.add_sub_cancel, List.take_left]

/-- **A number is a number token**, if the character after it does not belong to it. -/
theorem parseToken_number {n r : List UInt8} (hn : IsNumber n) (hr : EndsNumber r) :
    jsonParseToken (n ++ r) = (.number (CString.ofBytes n), r) := by
  have hskip := skipNumber_append hn hr
  have hhead : ∃ c l, n = c :: l ∧ (c = 45 ∨ isDigit c = true) := by
    obtain ⟨ds, frac, hds, -, rfl | ⟨hne, rfl⟩⟩ := hn
    · exact ⟨_, _, rfl, .inl rfl⟩
    · obtain ⟨d, ds', rfl⟩ := List.exists_cons_of_ne_nil hne
      exact ⟨_, _, rfl, .inr (hds d List.mem_cons_self)⟩
  obtain ⟨c, l, rfl, hc⟩ := hhead
  rw [List.cons_append, parseToken_of_numberStart hc]
  exact scanNumber_of_skipNumber hskip

/-! ### Lexing -/

/-- The tokens `toks` are read off `text`, whatever follows it; if the text is `opened`, what
follows must not go on a number. -/
def Lexes (text : List UInt8) (toks : List JsonToken) (opened : Bool) : Prop :=
  ∀ r, (opened = true → EndsNumber r) → Reads jsonParseToken .none toks (text ++ r) r

/-- The text begins with a character that ends a number. -/
def Closes (text : List UInt8) : Prop := text ≠ [] ∧ EndsNumber text

theorem Closes.append {t : List UInt8} (h : Closes t) (r : List UInt8) : EndsNumber (t ++ r) := by
  obtain ⟨c, l, rfl⟩ := List.exists_cons_of_ne_nil h.1
  exact h.2

theorem Lexes.append {t u : List UInt8} {k l : List JsonToken} {o o' : Bool} (h : Lexes t k o)
    (h' : Lexes u l o') (ho : o = true → Closes u) : Lexes (t ++ u) (k ++ l) o' := by
  intro r hr
  rw [List.append_assoc]
  exact (h (u ++ r) fun h1 => (ho h1).append r).append (h' r hr)

theorem Lexes.opened {t : List UInt8} {k : List JsonToken} (h : Lexes t k false) (o : Bool) :
    Lexes t k o := fun r _ => h r nofun

/-- What a text is read as on its own. -/
theorem Lexes.alone {t : List UInt8} {k : List JsonToken} {o : Bool} (h : Lexes t k o) :
    Reads jsonParseToken .none k t [] := by
  have hreads := h [] fun _ => endsNumber_nil
  rwa [List.append_nil] at hreads

/-- A quoted text is one string token. -/
theorem lexes_quoted {l : List UInt8} (h : quotable false l = true) :
    Lexes (34 :: l ++ [34]) [.string (CString.ofBytes l)] false := by
  intro r _
  have hr : 34 :: l ++ [34] ++ r = 34 :: (l ++ 34 :: r) := by simp
  rw [hr]
  exact .token nofun (parseToken_quoted h r) (.done rfl)

/-- A number is one number token. -/
theorem lexes_number {n : List UInt8} (h : IsNumber n) :
    Lexes n [.number (CString.ofBytes n)] true := fun _ hr =>
  .token nofun (parseToken_number h (hr rfl)) (.done rfl)

/-- Blanks are no tokens. -/
theorem lexes_space {c : UInt8} (h : isSpace c = true) : Lexes [c] [] false := by
  intro r _
  refine .done ?_
  show jsonParseToken (c :: r) = jsonParseToken r
  have hskip : jsonSkipWhitespace (c :: r) = jsonSkipWhitespace r := List.dropWhile_cons_of_pos h
  unfold jsonParseToken
  rw [hskip]

end Luminix
