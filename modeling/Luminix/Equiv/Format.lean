import Luminix.Equiv.Progress

/-!
# What is accepted in place of JSON

The loops of the reader follow a grammar of their own, over the tokens that `json_parse_token`
finds.  It is written down here part by part, next to the proof that the part accepts exactly that
(`Decides`).  It is looser than JSON in these ways:

* a comma may stand in front of a closing bracket (`Members.more` and then `Members.close`),
* a skipped value may be any single token, a comma or a closing bracket included (`Skipped.token`),
* under most keys a skipped value may also break off, right behind a token that has no place in it
  (`Skimmed`).

The tokens are looser than those of JSON, too: a number is any run of the characters of a number in
the right order, and a string ends at its closing quote, whatever it contains.
-/

namespace Luminix

open CLib

variable {σ : Type}

/-! ### The tokens of a text -/

/-- From `l` on the tokens `ts` are found, and `l'` is left. -/
def Spans : List JsonToken → List UInt8 → List UInt8 → Prop
  | [], l, l' => l = l'
  | t :: ts, l, l' => ∃ m, jsonParseToken l = (t, m) ∧ Spans ts m l'

@[simp] theorem spans_nil {l l' : List UInt8} : Spans [] l l' ↔ l = l' := Iff.rfl

@[simp] theorem spans_cons {t : JsonToken} {ts : List JsonToken} {l l' : List UInt8} :
    Spans (t :: ts) l l' ↔ ∃ m, jsonParseToken l = (t, m) ∧ Spans ts m l' := Iff.rfl

@[simp] theorem spans_append {ts us : List JsonToken} {l l' : List UInt8} :
    Spans (ts ++ us) l l' ↔ ∃ m, Spans ts l m ∧ Spans us m l' := by
  induction ts generalizing l with
  | nil => simp
  | cons t ts ih => simp only [List.cons_append, spans_cons, ih]; grind

theorem spans_singleton {t : JsonToken} {l l' : List UInt8} :
    Spans [t] l l' ↔ jsonParseToken l = (t, l') := by
  simp

theorem Spans.length_le {ts : List JsonToken} {l l' : List UInt8} (h : Spans ts l l') :
    l'.length ≤ l.length := by
  induction ts generalizing l with
  | nil => exact (congrArg List.length h).ge
  | cons t ts ih =>
    obtain ⟨m, hm, h⟩ := h
    exact (ih h).trans (length_of_parseToken hm)

/-- **A part of the reader accepts exactly the token lists of `L`**, with the results of `L`. -/
def Decides (f : List UInt8 → Except Failure (σ × List UInt8)) (L : List JsonToken → σ → Prop) :
    Prop :=
  ∀ l s l', f l = .ok (s, l') ↔ ∃ ts, L ts s ∧ Spans ts l l'

/-- Changing the result changes it in the grammar. -/
theorem Decides.map {τ : Type} {f : List UInt8 → Except Failure (σ × List UInt8)}
    {L : List JsonToken → σ → Prop} (h : Decides f L) (g : σ → τ) :
    Decides (fun l => (f l).map fun (s, l) => (g s, l)) fun ts t => ∃ s, L ts s ∧ t = g s := by
  intro l t l'
  show (f l).map _ = _ ↔ _
  constructor
  · intro hok
    cases hf : f l with
    | error e =>
      rw [hf] at hok
      cases hok
    | ok r =>
      obtain ⟨s, m⟩ := r
      rw [hf] at hok
      cases hok
      obtain ⟨ts, hts, hspan⟩ := (h l s _).mp hf
      exact ⟨ts, ⟨s, hts, rfl⟩, hspan⟩
  · rintro ⟨ts, ⟨s, hts, rfl⟩, hspan⟩
    rw [(h l s l').mpr ⟨ts, hts, hspan⟩]
    rfl

/-- A part that is a string. -/
theorem decides_string (g : CString → σ) :
    Decides (fun l => match jsonParseToken l with
      | (.string name, l) => .ok (g name, l)
      | _ => invalid) fun ts s => ∃ name, ts = [.string name] ∧ s = g name := by
  intro l s l'
  constructor
  · intro hok
    dsimp only at hok
    split at hok
    next name m ht =>
      cases hok
      exact ⟨_, ⟨name, rfl, rfl⟩, spans_singleton.mpr ht⟩
    · cases hok
  · rintro ⟨ts, ⟨name, rfl, rfl⟩, hspan⟩
    dsimp only
    rw [spans_singleton.mp hspan]

/-- A part that starts with a fixed token. -/
theorem Decides.after {f g : List UInt8 → Except Failure (σ × List UInt8)}
    {L : List JsonToken → σ → Prop} {t : JsonToken} (h : Decides f L)
    (hstart : ∀ l m, jsonParseToken l = (t, m) → g l = f m)
    (hother : ∀ l s r, g l = .ok (s, r) → (jsonParseToken l).1 = t) :
    Decides g fun ts s => ∃ us, ts = t :: us ∧ L us s := by
  intro l s l'
  constructor
  · intro hok
    have ht : jsonParseToken l = (t, (jsonParseToken l).2) := by rw [← hother l s l' hok]
    rw [hstart l _ ht] at hok
    obtain ⟨us, hus, hspan⟩ := (h _ s l').mp hok
    exact ⟨_, ⟨us, rfl, hus⟩, _, ht, hspan⟩
  · rintro ⟨ts, ⟨us, rfl, hus⟩, m, ht, hspan⟩
    rw [hstart l m ht]
    exact (h m s l').mpr ⟨us, hus, hspan⟩

theorem Decides.objectStart {f : List UInt8 → Except Failure (σ × List UInt8)}
    {L : List JsonToken → σ → Prop} (h : Decides f L) :
    Decides (fun l => match jsonParseToken l with
      | (.objectStart, l) => f l
      | _ => invalid) fun ts s => ∃ us, ts = .objectStart :: us ∧ L us s := by
  apply h.after
  · intro l m ht
    rw [ht]
  · intro l s r hok
    split at hok
    next m ht => rw [ht]
    · cases hok

theorem Decides.arrayStart {f : List UInt8 → Except Failure (σ × List UInt8)}
    {L : List JsonToken → σ → Prop} (h : Decides f L) :
    Decides (fun l => match jsonParseToken l with
      | (.arrayStart, l) => f l
      | _ => invalid) fun ts s => ∃ us, ts = .arrayStart :: us ∧ L us s := by
  apply h.after
  · intro l m ht
    rw [ht]
  · intro l s r hok
    split at hok
    next m ht => rw [ht]
    · cases hok

/-! ### Objects and arrays -/

/-- What the loop over an object accepts after the `{`.  `value` is what may follow the colon. -/
inductive Members (value : CString → σ → List JsonToken → σ → Prop) : σ → List JsonToken → σ → Prop
  | close {s : σ} : Members value s [.objectEnd] s
  | last {key : CString} {s s' : σ} {v : List JsonToken} (h : value key s v s') :
      Members value s (.string key :: .colon :: (v ++ [.objectEnd])) s'
  | more {key : CString} {s s' s'' : σ} {v ts : List JsonToken} (h : value key s v s')
      (hrest : Members value s' ts s'') :
      Members value s (.string key :: .colon :: (v ++ .comma :: ts)) s''

/-- What the loop over an array accepts after the `[`; `element` is what may follow a `{`. -/
inductive Elements (element : σ → List JsonToken → σ → Prop) : σ → List JsonToken → σ → Prop
  | close {s : σ} : Elements element s [.arrayEnd] s
  | last {s s' : σ} {v : List JsonToken} (h : element s v s') :
      Elements element s (.objectStart :: (v ++ [.arrayEnd])) s'
  | more {s s' s'' : σ} {v ts : List JsonToken} (h : element s v s')
      (hrest : Elements element s' ts s'') :
      Elements element s (.objectStart :: (v ++ .comma :: ts)) s''

section

variable {member : CString → σ → List UInt8 → Except Failure (σ × List UInt8)}
  {value : CString → σ → List JsonToken → σ → Prop}

theorem members_of_parseMembers (hvalue : ∀ key s, Decides (member key s) (value key s)) {fuel : Nat}
    {s s' : σ} {l l' : List UInt8} (h : parseMembers member fuel s l = .ok (s', l')) :
    ∃ ts, Members value s ts s' ∧ Spans ts l l' := by
  induction fuel generalizing s l with
  | zero => cases h
  | succ fuel ih =>
    rw [parseMembers] at h
    split at h
    next m hend =>
      cases h
      exact ⟨_, .close, spans_singleton.mpr hend⟩
    next key m hkey =>
      split at h
      next m₁ hcolon =>
        split at h
        next s₁ m₂ hok =>
          obtain ⟨v, hv, hspan⟩ := (hvalue key s m₁ s₁ m₂).mp hok
          split at h
          next m₃ hcomma =>
            -- behind a comma the rest of the object is read like a new one
            obtain ⟨ts, hts, hrest⟩ := ih h
            exact ⟨_, .more hv hts, m, hkey, m₁, hcolon,
              spans_append.mpr ⟨m₂, hspan, m₃, hcomma, hrest⟩⟩
          next m₃ hend =>
            cases h
            exact ⟨_, .last hv, m, hkey, m₁, hcolon,
              spans_append.mpr ⟨m₂, hspan, spans_singleton.mpr hend⟩⟩
          · cases h
        · cases h
      · cases h
    · cases h

theorem parseMembers_of_members (hvalue : ∀ key s, Decides (member key s) (value key s)) {s s' : σ}
    {ts : List JsonToken} (h : Members value s ts s') {fuel : Nat} {l l' : List UInt8}
    (hl : l.length < fuel) (hspan : Spans ts l l') :
    parseMembers member fuel s l = .ok (s', l') := by
  induction h generalizing fuel l with
  | close =>
    obtain ⟨fuel, rfl⟩ := Nat.exists_eq_succ_of_ne_zero (Nat.ne_zero_of_lt hl)
    rw [parseMembers, spans_singleton.mp hspan]
  | @last key s s' v hv =>
    obtain ⟨fuel, rfl⟩ := Nat.exists_eq_succ_of_ne_zero (Nat.ne_zero_of_lt hl)
    obtain ⟨m, hkey, m₁, hcolon, hspan⟩ := hspan
    obtain ⟨m₂, hspan, hend⟩ := spans_append.mp hspan
    have hok := (hvalue key s m₁ s' m₂).mpr ⟨v, hv, hspan⟩
    rw [parseMembers, hkey]
    dsimp only
    rw [hcolon]
    dsimp only
    rw [hok]
    dsimp only
    rw [spans_singleton.mp hend]
  | @more key s s' s'' v ts hv hts ih =>
    obtain ⟨fuel, rfl⟩ := Nat.exists_eq_succ_of_ne_zero (Nat.ne_zero_of_lt hl)
    obtain ⟨m, hkey, m₁, hcolon, hspan⟩ := hspan
    obtain ⟨m₂, hspan, m₃, hcomma, hrest⟩ := spans_append.mp hspan
    have hok := (hvalue key s m₁ s' m₂).mpr ⟨v, hv, hspan⟩
    -- the rest of the text is shorter, so the bound is large enough for it
    have h1 := length_parseToken_lt hkey (by simp) (by simp)
    have h2 := length_of_parseToken hcolon
    have h3 := hspan.length_le
    have h4 := length_of_parseToken hcomma
    rw [parseMembers, hkey]
    dsimp only
    rw [hcolon]
    dsimp only
    rw [hok]
    dsimp only
    rw [hcomma]
    exact ih (by omega) hrest

/-- **The loop over an object.** -/
theorem decides_parseMembers (hvalue : ∀ key s, Decides (member key s) (value key s)) (s : σ) :
    Decides (fun l => parseMembers member (l.length + 1) s l) (Members value s) := fun l _ _ =>
  ⟨members_of_parseMembers hvalue, fun ⟨_, hts, hspan⟩ =>
    parseMembers_of_members hvalue hts (Nat.lt_succ_self l.length) hspan⟩

end

section

variable {elem : σ → List UInt8 → Except Failure (σ × List UInt8)}
  {element : σ → List JsonToken → σ → Prop}

theorem elements_of_parseElements (helement : ∀ s, Decides (elem s) (element s)) {fuel : Nat}
    {s s' : σ} {l l' : List UInt8} (h : parseElements elem fuel s l = .ok (s', l')) :
    ∃ ts, Elements element s ts s' ∧ Spans ts l l' := by
  induction fuel generalizing s l with
  | zero => cases h
  | succ fuel ih =>
    rw [parseElements] at h
    split at h
    next m hend =>
      cases h
      exact ⟨_, .close, spans_singleton.mpr hend⟩
    next m hstart =>
      split at h
      next s₁ m₁ hok =>
        obtain ⟨v, hv, hspan⟩ := (helement s m s₁ m₁).mp hok
        split at h
        next m₂ hcomma =>
          obtain ⟨ts, hts, hrest⟩ := ih h
          exact ⟨_, .more hv hts, m, hstart, spans_append.mpr ⟨m₁, hspan, m₂, hcomma, hrest⟩⟩
        next m₂ hend =>
          cases h
          exact ⟨_, .last hv, m, hstart,
            spans_append.mpr ⟨m₁, hspan, spans_singleton.mpr hend⟩⟩
        · cases h
      · cases h
    · cases h

theorem parseElements_of_elements (helement : ∀ s, Decides (elem s) (element s)) {s s' : σ}
    {ts : List JsonToken} (h : Elements element s ts s') {fuel : Nat} {l l' : List UInt8}
    (hl : l.length < fuel) (hspan : Spans ts l l') :
    parseElements elem fuel s l = .ok (s', l') := by
  induction h generalizing fuel l with
  | close =>
    obtain ⟨fuel, rfl⟩ := Nat.exists_eq_succ_of_ne_zero (Nat.ne_zero_of_lt hl)
    rw [parseElements, spans_singleton.mp hspan]
  | @last s s' v hv =>
    obtain ⟨fuel, rfl⟩ := Nat.exists_eq_succ_of_ne_zero (Nat.ne_zero_of_lt hl)
    obtain ⟨m, hstart, hspan⟩ := hspan
    obtain ⟨m₁, hspan, hend⟩ := spans_append.mp hspan
    have hok := (helement s m s' m₁).mpr ⟨v, hv, hspan⟩
    rw [parseElements, hstart]
    dsimp only
    rw [hok]
    dsimp only
    rw [spans_singleton.mp hend]
  | @more s s' s'' v ts hv hts ih =>
    obtain ⟨fuel, rfl⟩ := Nat.exists_eq_succ_of_ne_zero (Nat.ne_zero_of_lt hl)
    obtain ⟨m, hstart, hspan⟩ := hspan
    obtain ⟨m₁, hspan, m₂, hcomma, hrest⟩ := spans_append.mp hspan
    have hok := (helement s m s' m₁).mpr ⟨v, hv, hspan⟩
    -- again the rest of the text is shorter
    have h1 := length_parseToken_lt hstart (by simp) (by simp)
    have h2 := hspan.length_le
    have h3 := length_of_parseToken hcomma
    rw [parseElements, hstart]
    dsimp only
    rw [hok]
    dsimp only
    rw [hcomma]
    exact ih (by omega) hrest

/-- **The loop over an array.** -/
theorem decides_parseElements (helement : ∀ s, Decides (elem s) (element s)) (s : σ) :
    Decides (fun l => parseElements elem (l.length + 1) s l) (Elements element s) := fun l _ _ =>
  ⟨elements_of_parseElements helement, fun ⟨_, hts, hspan⟩ =>
    parseElements_of_elements helement hts (Nat.lt_succ_self l.length) hspan⟩

end

/-! ### Skipped values -/

/-- What `json_skip_token_value` reads behind the token `t` until it returns the code.  Its loops go
on as if their opening token had just been read. -/
inductive Skipped : ErrorCode → JsonToken → List JsonToken → Prop
  | token {t : JsonToken} (hobject : t ≠ .objectStart) (harray : t ≠ .arrayStart) :
      Skipped .success t []
  | objectEnd : Skipped .success .objectStart [.objectEnd]
  | objectLast {key : CString} {t : JsonToken} {v : List JsonToken} (h : Skipped .success t v) :
      Skipped .success .objectStart (.string key :: .colon :: t :: (v ++ [.objectEnd]))
  | objectMore {e : ErrorCode} {key : CString} {t : JsonToken} {v ts : List JsonToken}
      (h : Skipped .success t v) (hrest : Skipped e .objectStart ts) :
      Skipped e .objectStart (.string key :: .colon :: t :: (v ++ .comma :: ts))
  | noKey {t : JsonToken} (hend : t ≠ .objectEnd) (hkey : ∀ key, t ≠ .string key) :
      Skipped .invalidInput .objectStart [t]
  | noColon {key : CString} {t : JsonToken} (h : t ≠ .colon) :
      Skipped .invalidInput .objectStart [.string key, t]
  | brokenMember {e : ErrorCode} {key : CString} {t : JsonToken} {v : List JsonToken}
      (h : Skipped e t v) (he : e ≠ .success) :
      Skipped e .objectStart (.string key :: .colon :: t :: v)
  | noObjectEnd {key : CString} {t u : JsonToken} {v : List JsonToken} (h : Skipped .success t v)
      (hcomma : u ≠ .comma) (hend : u ≠ .objectEnd) :
      Skipped .invalidInput .objectStart (.string key :: .colon :: t :: (v ++ [u]))
  | arrayEnd : Skipped .success .arrayStart [.arrayEnd]
  | arrayLast {t : JsonToken} {v : List JsonToken} (ht : IsItem t) (h : Skipped .success t v) :
      Skipped .success .arrayStart (t :: (v ++ [.arrayEnd]))
  | arrayMore {e : ErrorCode} {t : JsonToken} {v ts : List JsonToken} (ht : IsItem t)
      (h : Skipped .success t v) (hrest : Skipped e .arrayStart ts) :
      Skipped e .arrayStart (t :: (v ++ .comma :: ts))
  | noItem {t : JsonToken} (ht : t = .eof ∨ t = .none) : Skipped .invalidInput .arrayStart [t]
  | brokenItem {e : ErrorCode} {t : JsonToken} {v : List JsonToken} (ht : IsItem t)
      (h : Skipped e t v) (he : e ≠ .success) : Skipped e .arrayStart (t :: v)
  | noArrayEnd {t u : JsonToken} {v : List JsonToken} (ht : IsItem t) (h : Skipped .success t v)
      (hcomma : u ≠ .comma) (hend : u ≠ .arrayEnd) :
      Skipped .invalidInput .arrayStart (t :: (v ++ [u]))

theorem skipped_of_skipTokenValue {fuel : Nat} {e : ErrorCode} {t : JsonToken} {l l' : List UInt8}
    (h : jsonSkipTokenValue fuel t l = some (e, l')) : ∃ ts, Skipped e t ts ∧ Spans ts l l' := by
  induction fuel generalizing e t l l' with
  | zero => cases h
  | succ fuel ih =>
    cases t
    case objectStart =>
      -- one case for each thing that may stand behind an opening brace
      rcases object_cases l with ⟨m, hend⟩ | ⟨key, m, m₁, hkey, hcolon⟩ |
        ⟨key, m, u, m₁, hkey, hu, hcolon⟩ | ⟨u, m, hu, hend, hkey⟩
      · rw [skip_object_end hend] at h
        cases h
        exact ⟨_, .objectEnd, spans_singleton.mpr hend⟩
      · rw [skip_member hkey hcolon] at h
        rcases afterSkipped_cases h with ⟨he, hvalue⟩ | ⟨m₂, hvalue, hnext⟩
        · obtain ⟨v, hv, hspan⟩ := ih hvalue
          exact ⟨_, .brokenMember hv he, m, hkey, m₁, hcolon, _, rfl, hspan⟩
        obtain ⟨v, hv, hspan⟩ := ih hvalue
        rcases hnext with ⟨m₃, hcomma, hrest⟩ | ⟨-, hend, rfl⟩ | ⟨u, hcomma, hend, hu, rfl⟩
        · obtain ⟨ts, hts, hrest⟩ := ih hrest
          exact ⟨_, .objectMore hv hts, m, hkey, m₁, hcolon, _, rfl,
            spans_append.mpr ⟨m₂, hspan, m₃, hcomma, hrest⟩⟩
        · exact ⟨_, .objectLast hv, m, hkey, m₁, hcolon, _, rfl,
            spans_append.mpr ⟨m₂, hspan, spans_singleton.mpr hend⟩⟩
        · exact ⟨_, .noObjectEnd hv hcomma hend, m, hkey, m₁, hcolon, _, rfl,
            spans_append.mpr ⟨m₂, hspan, spans_singleton.mpr hu⟩⟩
      · rw [skip_noColon hkey hu hcolon] at h
        cases h
        exact ⟨_, .noColon hcolon, m, hkey, spans_singleton.mpr hu⟩
      · rw [skip_noKey hu hend hkey] at h
        cases h
        exact ⟨_, .noKey hend hkey, spans_singleton.mpr hu⟩
    case arrayStart =>
      -- and behind an opening bracket
      rcases array_cases l with ⟨m, hend⟩ | ⟨u, m, hu, hout⟩ | ⟨u, m, hu, hitem⟩
      · rw [skip_array_end hend] at h
        cases h
        exact ⟨_, .arrayEnd, spans_singleton.mpr hend⟩
      · rw [skip_noItem hu hout] at h
        cases h
        exact ⟨_, .noItem hout, spans_singleton.mpr hu⟩
      · rw [skip_item hitem hu] at h
        rcases afterSkipped_cases h with ⟨he, hvalue⟩ | ⟨m₁, hvalue, hnext⟩
        · obtain ⟨v, hv, hspan⟩ := ih hvalue
          exact ⟨_, .brokenItem hitem hv he, m, hu, hspan⟩
        obtain ⟨v, hv, hspan⟩ := ih hvalue
        rcases hnext with ⟨m₂, hcomma, hrest⟩ | ⟨-, hend, rfl⟩ | ⟨w, hcomma, hend, hw, rfl⟩
        · obtain ⟨ts, hts, hrest⟩ := ih hrest
          exact ⟨_, .arrayMore hitem hv hts, m, hu,
            spans_append.mpr ⟨m₁, hspan, m₂, hcomma, hrest⟩⟩
        · exact ⟨_, .arrayLast hitem hv, m, hu,
            spans_append.mpr ⟨m₁, hspan, spans_singleton.mpr hend⟩⟩
        · exact ⟨_, .noArrayEnd hitem hv hcomma hend, m, hu,
            spans_append.mpr ⟨m₁, hspan, spans_singleton.mpr hw⟩⟩
    all_goals
      rw [jsonSkipTokenValue] at h
      · cases h
        exact ⟨[], .token (by simp) (by simp), rfl⟩
      all_goals simp

/-- The round over a member of an object, up to the end of its value. -/
theorem skip_member_of_spans {key : CString} {t : JsonToken} {e : ErrorCode} {fuel : Nat}
    {v ts : List JsonToken} {l l' : List UInt8} (hl : l.length < fuel + 1)
    (hspan : Spans (.string key :: .colon :: t :: (v ++ ts)) l l')
    (hvalue : ∀ {m m' : List UInt8}, m.length < fuel → Spans v m m' →
      jsonSkipTokenValue fuel t m = some (e, m')) :
    ∃ m, m.length < fuel ∧ Spans ts m l' ∧ jsonSkipTokenValue (fuel + 1) .objectStart l =
      afterSkipped .objectEnd (jsonSkipTokenValue fuel .objectStart) (some (e, m)) := by
  obtain ⟨m, hkey, m₁, hcolon, m₂, ht, hspan⟩ := hspan
  obtain ⟨m₃, hspan, hrest⟩ := spans_append.mp hspan
  have h1 := length_parseToken_lt hkey (by simp) (by simp)
  have h2 := length_of_parseToken hcolon
  have h3 := length_of_parseToken ht
  have h4 := hspan.length_le
  refine ⟨m₃, by omega, hrest, ?_⟩
  rw [skip_member hkey hcolon, ht, hvalue (by omega) hspan]

/-- The round over an element of an array, up to its end. -/
theorem skip_item_of_spans {t : JsonToken} (ht : IsItem t) {e : ErrorCode} {fuel : Nat}
    {v ts : List JsonToken} {l l' : List UInt8} (hl : l.length < fuel + 1)
    (hspan : Spans (t :: (v ++ ts)) l l')
    (hvalue : ∀ {m m' : List UInt8}, m.length < fuel → Spans v m m' →
      jsonSkipTokenValue fuel t m = some (e, m')) :
    ∃ m, m.length < fuel ∧ Spans ts m l' ∧ jsonSkipTokenValue (fuel + 1) .arrayStart l =
      afterSkipped .arrayEnd (jsonSkipTokenValue fuel .arrayStart) (some (e, m)) := by
  obtain ⟨m, hitem, hspan⟩ := hspan
  obtain ⟨m₁, hspan, hrest⟩ := spans_append.mp hspan
  have h1 := length_parseToken_lt hitem ht.2.2 ht.2.1
  have h2 := hspan.length_le
  refine ⟨m₁, by omega, hrest, ?_⟩
  rw [skip_item ht hitem, hvalue (by omega) hspan]

theorem skipTokenValue_of_skipped {e : ErrorCode} {t : JsonToken} {ts : List JsonToken}
    (h : Skipped e t ts) {fuel : Nat} {l l' : List UInt8} (hl : l.length < fuel)
    (hspan : Spans ts l l') : jsonSkipTokenValue fuel t l = some (e, l') := by
  induction h generalizing fuel l l' with
  | @token t hobject harray =>
    obtain ⟨fuel, rfl⟩ := Nat.exists_eq_succ_of_ne_zero (Nat.ne_zero_of_lt hl)
    obtain rfl : l = l' := hspan
    cases t
    case objectStart => exact absurd rfl hobject
    case arrayStart => exact absurd rfl harray
    all_goals rfl
  | objectEnd =>
    obtain ⟨fuel, rfl⟩ := Nat.exists_eq_succ_of_ne_zero (Nat.ne_zero_of_lt hl)
    exact skip_object_end (spans_singleton.mp hspan) fuel
  | objectLast hv ih =>
    obtain ⟨fuel, rfl⟩ := Nat.exists_eq_succ_of_ne_zero (Nat.ne_zero_of_lt hl)
    obtain ⟨m, -, hend, hround⟩ := skip_member_of_spans hl hspan ih
    rw [hround]
    exact afterSkipped_close (by simp) (spans_singleton.mp hend)
  | objectMore hv hts ih ihrest =>
    obtain ⟨fuel, rfl⟩ := Nat.exists_eq_succ_of_ne_zero (Nat.ne_zero_of_lt hl)
    obtain ⟨m, hm, ⟨m₁, hcomma, hrest⟩, hround⟩ := skip_member_of_spans hl hspan ih
    have h1 := length_of_parseToken hcomma
    rw [hround, afterSkipped_comma hcomma]
    exact ihrest (by omega) hrest
  | noKey hend hkey =>
    obtain ⟨fuel, rfl⟩ := Nat.exists_eq_succ_of_ne_zero (Nat.ne_zero_of_lt hl)
    exact skip_noKey (spans_singleton.mp hspan) hend hkey fuel
  | noColon hcolon =>
    obtain ⟨fuel, rfl⟩ := Nat.exists_eq_succ_of_ne_zero (Nat.ne_zero_of_lt hl)
    obtain ⟨m, hkey, ht⟩ := hspan
    exact skip_noColon hkey (spans_singleton.mp ht) hcolon fuel
  | @brokenMember e key t v hv he ih =>
    obtain ⟨fuel, rfl⟩ := Nat.exists_eq_succ_of_ne_zero (Nat.ne_zero_of_lt hl)
    -- nothing is read behind a value that breaks off
    rw [← List.append_nil v] at hspan
    obtain ⟨m, -, hend, hround⟩ := skip_member_of_spans hl hspan ih
    obtain rfl : m = l' := hend
    rw [hround]
    exact afterSkipped_of_ne he m
  | noObjectEnd hv hcomma hend ih =>
    obtain ⟨fuel, rfl⟩ := Nat.exists_eq_succ_of_ne_zero (Nat.ne_zero_of_lt hl)
    obtain ⟨m, -, hu, hround⟩ := skip_member_of_spans hl hspan ih
    rw [hround]
    exact afterSkipped_other (spans_singleton.mp hu) hcomma hend
  | arrayEnd =>
    obtain ⟨fuel, rfl⟩ := Nat.exists_eq_succ_of_ne_zero (Nat.ne_zero_of_lt hl)
    exact skip_array_end (spans_singleton.mp hspan) fuel
  | arrayLast ht hv ih =>
    obtain ⟨fuel, rfl⟩ := Nat.exists_eq_succ_of_ne_zero (Nat.ne_zero_of_lt hl)
    obtain ⟨m, -, hend, hround⟩ := skip_item_of_spans ht hl hspan ih
    rw [hround]
    exact afterSkipped_close (by simp) (spans_singleton.mp hend)
  | arrayMore ht hv hts ih ihrest =>
    obtain ⟨fuel, rfl⟩ := Nat.exists_eq_succ_of_ne_zero (Nat.ne_zero_of_lt hl)
    obtain ⟨m, hm, ⟨m₁, hcomma, hrest⟩, hround⟩ := skip_item_of_spans ht hl hspan ih
    have h1 := length_of_parseToken hcomma
    rw [hround, afterSkipped_comma hcomma]
    exact ihrest (by omega) hrest
  | noItem ht =>
    obtain ⟨fuel, rfl⟩ := Nat.exists_eq_succ_of_ne_zero (Nat.ne_zero_of_lt hl)
    exact skip_noItem (spans_singleton.mp hspan) ht fuel
  | @brokenItem e t v ht hv he ih =>
    obtain ⟨fuel, rfl⟩ := Nat.exists_eq_succ_of_ne_zero (Nat.ne_zero_of_lt hl)
    rw [← List.append_nil v] at hspan
    obtain ⟨m, -, hend, hround⟩ := skip_item_of_spans ht hl hspan ih
    obtain rfl : m = l' := hend
    rw [hround]
    exact afterSkipped_of_ne he m
  | noArrayEnd ht hv hcomma hend ih =>
    obtain ⟨fuel, rfl⟩ := Nat.exists_eq_succ_of_ne_zero (Nat.ne_zero_of_lt hl)
    obtain ⟨m, -, hu, hround⟩ := skip_item_of_spans ht hl hspan ih
    rw [hround]
    exact afterSkipped_other (spans_singleton.mp hu) hcomma hend

/-- A value that is skipped, its first token included. -/
def SkipsAs (e : ErrorCode) (ts : List JsonToken) : Prop := ∃ t us, ts = t :: us ∧ Skipped e t us

/-- A value that is skipped whole, or that breaks off. -/
def Skimmed (ts : List JsonToken) : Prop := ∃ e, SkipsAs e ts

theorem skipTokenValue_iff {e : ErrorCode} {l l' : List UInt8} :
    jsonSkipTokenValue (l.length + 1) (jsonParseToken l).1 (jsonParseToken l).2 = some (e, l') ↔
      ∃ ts, SkipsAs e ts ∧ Spans ts l l' := by
  constructor
  · intro h
    obtain ⟨ts, hts, hspan⟩ := skipped_of_skipTokenValue h
    exact ⟨_, ⟨_, ts, rfl, hts⟩, _, rfl, hspan⟩
  · rintro ⟨_, ⟨t, us, rfl, hus⟩, m, ht, hspan⟩
    rw [ht]
    exact skipTokenValue_of_skipped hus (Nat.lt_succ_of_le (length_of_parseToken ht)) hspan

/-- Skipping a value of which the result is ignored. -/
theorem decides_skipValue (s : σ) :
    Decides (fun l => (skipValue l).map fun l => (s, l)) fun ts s' => Skimmed ts ∧ s' = s := by
  intro l s' l'
  obtain ⟨e, m, hskip, -⟩ := jsonSkipTokenValue_some (l.length + 1) (jsonParseToken l).1
    (jsonParseToken l).2 (Nat.lt_succ_of_le (length_parseToken_le l))
  have hvalue : (skipValue l).map (fun l => (s, l)) = .ok (s, m) := by
    rw [skipValue, hskip]
    rfl
  show (skipValue l).map (fun l => (s, l)) = .ok (s', l') ↔ _
  rw [hvalue]
  constructor
  · intro h
    cases h
    obtain ⟨ts, hts, hspan⟩ := skipTokenValue_iff.mp hskip
    exact ⟨ts, ⟨⟨e, hts⟩, rfl⟩, hspan⟩
  · rintro ⟨ts, ⟨⟨e', hts⟩, rfl⟩, hspan⟩
    have hagain := skipTokenValue_iff.mpr ⟨ts, hts, hspan⟩
    rw [hskip] at hagain
    cases hagain
    rfl

/-- Skipping a value of which the result is passed on. -/
theorem decides_skipValueChecked (s : σ) :
    Decides (fun l => (skipValueChecked l).map fun l => (s, l)) fun ts s' =>
      SkipsAs .success ts ∧ s' = s := by
  intro l s' l'
  obtain ⟨e, m, hskip, -⟩ := jsonSkipTokenValue_some (l.length + 1) (jsonParseToken l).1
    (jsonParseToken l).2 (Nat.lt_succ_of_le (length_parseToken_le l))
  show (skipValueChecked l).map (fun l => (s, l)) = .ok (s', l') ↔ _
  constructor
  · intro h
    rw [skipValueChecked, hskip] at h
    cases e
    case success =>
      cases h
      obtain ⟨ts, hts, hspan⟩ := skipTokenValue_iff.mp hskip
      exact ⟨ts, ⟨hts, rfl⟩, hspan⟩
    all_goals cases h
  · rintro ⟨ts, ⟨hts, rfl⟩, hspan⟩
    rw [skipValueChecked, skipTokenValue_iff.mpr ⟨ts, hts, hspan⟩]
    rfl

end Luminix
