import Luminix.Equiv.Nameless
import Luminix.Equiv.Prefix

/-!
# Files that are cut off

A file that has been cut off is never accepted: the whole file would then have been read up to the cut
and no further, but it ends with a brace (`torn_write_detected`).  Nor does it end the program, since
the whole file would end it at the same place, and in a file that has been saved all columns have
names (`returns_savedFile`).
-/

namespace Luminix

open CLib TokenReader

variable {p : Platform}

/-! ### The whole file -/

theorem dbAddTable_ne_crash (db : Database) (name : Option CString)
    {fields : List (Option CString × FieldType)} {named : List (CString × FieldType)}
    (h : namedFields fields = some named) : (dbAddTable db name (some fields)).1 ≠ .crash := by
  unfold dbAddTable
  split
  next name l hl =>
    obtain rfl := Option.some.inj hl
    split
    · split
      · simp
      · split
        · dsimp only
          split
          next hnone =>
            rw [h] at hnone
            cases hnone
          · simp
        · simp
    · simp
  · simp

/-- In the schema of a saved table all columns have names. -/
theorem returns_savedSchema (db : Database) (t : Table) {rest : List JsonToken} {l l' : List UInt8}
    (h : Reads jsonParseToken .none
      (memberTokens (cstr "schema") (.objectStart :: schemaTokens t) ++ rest) l l') :
    Returns (jsonParseTableSchema db l) := by
  have hloop := settles_schemaStart t h
  have hadd : (dbAddTable db (some (loadedName t)) (some (loadedColumns t))).1 ≠ .crash :=
    dbAddTable_ne_crash db _ (namedFields_loadedColumns t)
  unfold jsonParseTableSchema
  generalize schemaLoop (l.length + 1) ⟨cstr "", []⟩ (schemaStart l).1 (schemaStart l).2 = res
    at hloop
  cases hloop with
  | done hrest =>
    dsimp only
    split_ifs
    · split
      · exact returns_ok _
      next e db' _ h =>
        rintro ⟨⟩
        rw [h] at hadd
        exact hadd rfl
    · exact returns_invalid

theorem returns_savedTable (s : Store) (t : Table) {sep : JsonToken} {rest : List JsonToken}
    {l l' : List UInt8}
    (h : Reads jsonParseToken .none ((tableTokens p t).tail ++ sep :: rest) l l') :
    Returns (parseTable p s l) := by
  intro hcrash
  rw [parseTable_crash_iff] at hcrash
  have htoks : (tableTokens p t).tail ++ sep :: rest =
      memberTokens (cstr "schema") (.objectStart :: schemaTokens t) ++
        .comma :: .string (cstr "records") :: .colon :: .arrayStart ::
          (arrayTail (t.records.map (recordTokens p t.columns)) ++ .objectEnd :: sep :: rest) := by
    simp [tableTokens, objectTail, sepBy, memberTokens]
  rw [htoks] at h
  exact returns_savedSchema s.db t h hcrash

/-- The array of tables, after its `[`. -/
theorem returns_savedTables (ts : List Table) {fuel : Nat} {rest : List JsonToken} (s : Store)
    {l l' : List UInt8} (hl : l.length < fuel)
    (h : Reads jsonParseToken .none (arrayTail (ts.map (tableTokens p)) ++ rest) l l') :
    Returns (tablesLoop p fuel false s l) := by
  induction ts generalizing fuel s l with
  | nil =>
    obtain ⟨fuel, rfl⟩ := Nat.exists_eq_succ_of_ne_zero (Nat.ne_zero_of_lt hl)
    obtain ⟨l₁, h1, -⟩ := h.head (by simp)
    rw [tablesLoop_close p h1]
    exact returns_ok _
  | cons t ts ih =>
    obtain ⟨fuel, rfl⟩ := Nat.exists_eq_succ_of_ne_zero (Nat.ne_zero_of_lt hl)
    -- a table goes on behind its brace up to the end of the array or to a comma
    obtain ⟨after, sep, k, hsep, htoks, hnext⟩ : ∃ after sep k, AfterTable.IsAt after sep ∧
        arrayTail ((t :: ts).map (tableTokens p)) ++ rest =
          .objectStart :: ((tableTokens p t).tail ++ sep :: k) ∧
        (after = .arrayEnd ∨ after = .element ∧ k = arrayTail (ts.map (tableTokens p)) ++ rest) := by
      cases ts with
      | nil => exact ⟨.arrayEnd, .arrayEnd, rest, rfl, by simp [arrayTail, sepBy, tableTokens], .inl rfl⟩
      | cons t' ts =>
        exact ⟨.element, .comma, _, rfl, by simp [arrayTail, sepBy, tableTokens], .inr ⟨rfl, rfl⟩⟩
    rw [htoks] at h
    obtain ⟨l₁, h1, h⟩ := h.head (by simp)
    have hlt := length_parseToken_lt h1 (by simp) (by simp)
    have htable := settles_table p s t after hsep h
    have hreturns := returns_savedTable s t h
    have hsteady := steadyTable_parseTable p s l₁
    rw [tablesLoop_open p h1]
    unfold tableRound
    generalize parseTable p s l₁ = res at htable hreturns hsteady
    generalize loadTable p s t = loaded at htable
    cases htable with
    | failed => exact hreturns.error rfl
    | done hrest =>
      rcases hnext with rfl | ⟨rfl, rfl⟩
      · exact returns_ok _
      · have h2 := hsteady.2 (by simp)
        exact ih _ (by omega) hrest

/-- The member `tables`, which is the last one. -/
theorem returns_savedMembers (ts : List Table) (fuel : Nat) (s : Store) {l l' : List UInt8}
    (h : Reads jsonParseToken .none (.string (cstr "tables") :: .colon ::
      ((.arrayStart :: arrayTail (ts.map (tableTokens p))) ++ [.objectEnd])) l l') :
    Returns (parseMembers (topMember p) fuel s l) := by
  cases fuel with
  | zero => exact nofun
  | succ fuel =>
    obtain ⟨l₁, h1, h⟩ := h.head (by simp)
    obtain ⟨l₂, h2, h⟩ := h.head (by simp)
    obtain ⟨l₃, h3, h⟩ := h.head (by simp)
    have hsettles := settles_tablesLoop p ts s (Nat.lt_succ_self l₃.length) h
    have hreturns := returns_savedTables ts s (Nat.lt_succ_self l₃.length) h
    rw [parseMembers, h1]
    dsimp only
    rw [h2]
    dsimp only
    rw [topMember, if_neg (by decide), if_pos rfl, h3]
    dsimp only
    generalize tablesLoop p (l₃.length + 1) false s l₃ = res at hsettles hreturns
    generalize ts.foldlM (loadTable p) s = loaded at hsettles
    cases hsettles with
    | failed => exact hreturns.error rfl
    | done hend =>
      obtain ⟨l₄, h4, -⟩ := hend.head (by simp)
      dsimp only
      rw [h4]
      exact returns_ok _

/-- **A file that has been saved does not end the program.** -/
theorem returns_savedFile (hp : p.Faithful) {db : Database} (hdb : db.HasKeys) {text : List UInt8}
    (hsave : dbSaveToFile p db = (.success, some text)) (counter : Int) :
    Returns (loadContent p counter text) := by
  obtain ⟨text', hsave', hreads⟩ :=
    dbSaveToFile_reads hp hdb (timesConvert_of_save (congrArg Prod.snd hsave))
  obtain rfl : text' = text := by
    rw [hsave] at hsave'
    exact (Option.some.inj (Prod.mk.inj hsave').2).symm
  have htoks : fileTokens p db = .objectStart :: .string (cstr "metadata") :: .colon ::
      ((.objectStart :: metadataTokens p db) ++ .comma :: .string (cstr "tables") :: .colon ::
        ((.arrayStart :: arrayTail (db.tables.map (tableTokens p))) ++ [.objectEnd])) := by
    simp [fileTokens, objectTail, sepBy, memberTokens]
  rw [htoks] at hreads
  obtain ⟨l₁, h1, h⟩ := hreads.head (by simp)
  obtain ⟨l₂, h2, h⟩ := h.head (by simp)
  obtain ⟨l₃, h3, h⟩ := h.head (by simp)
  have hparts := List.forall_mem_cons.mp (readBy_fileParts p db)
  rw [loadContent, h1]
  refine Returns.map ?_ Prod.fst
  rw [parseMembers, h2]
  dsimp only
  rw [h3]
  dsimp only
  -- the metadata are read
  obtain ⟨-, hread⟩ | ⟨hnext, -⟩ := hparts.1
  · have hmetadata := hread ⟨dbCreate, counter⟩ _ l₃ _ h
    change Yields _ _ (some _) (topMember p (cstr "metadata") _ l₃) at hmetadata
    generalize topMember p (cstr "metadata") _ l₃ = res at hmetadata
    cases hmetadata with
    | done h =>
      obtain ⟨l₄, h4, h⟩ := h.head (by simp)
      dsimp only
      rw [h4]
      -- and behind the tables the object ends
      exact returns_savedMembers db.tables l₁.length _ h
  · cases hnext

/-! ### The cut -/

/-- Nothing is read where nothing can be read. -/
theorem Dead.spans {ts : List JsonToken} {l r : List UInt8} (hl : Dead l) (h : Spans ts l r) :
    ¬EndsObject ts := by
  induction ts generalizing l with
  | nil =>
    rintro ⟨us, hus⟩
    simp at hus
  | cons t ts ih =>
    obtain ⟨m, hm, h⟩ := h
    rintro ⟨us, hus⟩
    cases us with
    | nil =>
      obtain ⟨rfl, -⟩ := List.cons.inj hus
      exact hl.ne hm (by simp) (by simp)
    | cons u us => exact ih (hl.rest hm) h ⟨us, (List.cons.inj hus).2⟩

/-- **What is read up to a brace is read the same when the text goes on.** -/
theorem Spans.append_right {ts : List JsonToken} {l r : List UInt8} (h : Spans ts l r)
    (hend : EndsObject ts) (x : List UInt8) : Spans ts (l ++ x) (r ++ x) := by
  induction ts generalizing l with
  | nil =>
    obtain rfl : l = r := h
    rfl
  | cons t ts ih =>
    obtain ⟨m, hm, h⟩ := h
    obtain ⟨us, hus⟩ := hend
    cases us with
    | nil =>
      obtain ⟨rfl, rfl⟩ := List.cons.inj hus
      obtain rfl : m = r := h
      exact ⟨m ++ x, parseToken_append_of hm rfl x, rfl⟩
    | cons u us =>
      have hts : EndsObject ts := ⟨us, (List.cons.inj hus).2⟩
      rcases parseToken_append hm with ⟨hdead, -⟩ | ⟨-, -, happend⟩
      · exact absurd hts (hdead.spans h)
      · exact ⟨m ++ x, happend x, ih h hts⟩

/-- The file ends with a brace. -/
theorem dbSaveToFile_ends {db : Database} {text : List UInt8}
    (h : dbSaveToFile p db = (.success, some text)) : ∃ front, text = front ++ [125] := by
  unfold dbSaveToFile at h
  split at h
  · cases h
  next s hser =>
    -- the last thing that is appended is the closing brace
    have hlast : ∃ s₁ : JsonSerializeState, s₁.append p (ascii "\x7d") 1 = .ok s := by
      unfold serializeDatabase at hser
      split_ifs at hser
      iterate 8 obtain ⟨_, -, hser⟩ := exists_of_bind_eq_ok hser
      obtain ⟨s₁, -, h1⟩ := exists_of_bind_eq_ok hser
      exact ⟨s₁, h1⟩
    obtain ⟨s₁, h1⟩ := hlast
    obtain ⟨s₂, -, h2⟩ := exists_of_bind_eq_ok h1
    have hbuffer : s.buffer = s₂.buffer ++ [125] := by
      rw [← Except.ok.inj h2]
      rfl
    split_ifs at h with hopen
    · have htext := Option.some.inj (Prod.mk.inj h).2
      -- success means that all of it was written
      by_cases hlen : p.fwrite s.buffer.length = s.buffer.length
      · rw [hlen, List.take_length] at htext
        exact ⟨s₂.buffer, htext.symm.trans hbuffer⟩
      · have herr := (Prod.mk.inj h).1
        rw [if_neg hlen] at herr
        cases herr
    · exact absurd (Prod.mk.inj h).1 nofun

/-- Text with anything but blanks in it has a token. -/
theorem parseToken_ne_eof {l : List UInt8} (h : jsonSkipWhitespace l ≠ []) :
    (jsonParseToken l).1 ≠ .eof := by
  unfold jsonParseToken
  have hword : ∀ word t l, t ≠ .eof → (scanWord word t l).1 ≠ .eof := by
    intro word t l ht
    rcases scanWord_append word t l with hmiss | hgood
    · rw [hmiss]
      exact nofun
    · have h0 := hgood []
      rw [List.append_nil] at h0
      rw [h0]
      exact ht
  split
  next hnil => exact absurd hnil h
  case h_8 =>
    unfold scanString
    split <;> exact fun h => JsonToken.noConfusion h
  case h_9 => exact hword _ _ _ nofun
  case h_10 => exact hword _ _ _ nofun
  case h_11 => exact hword _ _ _ nofun
  case h_12 => split_ifs <;> exact fun h => JsonToken.noConfusion h
  all_goals exact fun h => JsonToken.noConfusion h

/-- The whole file would have been read up to the cut, but it ends with a brace. -/
theorem cut_ne_loaded (hp : p.Faithful) {db : Database} (hdb : db.HasKeys) {cut x : List UInt8}
    (hsave : dbSaveToFile p db = (.success, some (cut ++ x))) (hne : x ≠ []) (counter : Int)
    (s : Store) : dbLoadFromFile p counter (some cut) ≠ some (some s) := by
  intro hload
  obtain ⟨l₁, r, h1, hok⟩ := accepted_append p hload x
  have htimes : db.TimesConvert p := timesConvert_of_save (congrArg Prod.snd hsave)
  obtain ⟨text', hsave', l₁', h1', hfile⟩ := settles_file hp counter hdb htimes
  obtain rfl : text' = cut ++ x := by
    rw [hsave] at hsave'
    exact (Option.some.inj (Prod.mk.inj hsave').2).symm
  obtain rfl : l₁ = l₁' := by
    rw [h1] at h1'
    exact (Prod.mk.inj h1').2
  rw [hok] at hfile
  -- only blanks could be left over
  have hblank : (jsonParseToken (r ++ x)).1 = .eof := by
    generalize reload p counter db = loaded at hfile
    cases hfile with
    | done hrest =>
      cases hrest with
      | done hscan =>
        rw [hscan]
        rfl
  -- but the brace at the end of the file is among what is left
  obtain ⟨front, hfront⟩ := dbSaveToFile_ends hsave
  obtain ⟨y, c, rfl⟩ : ∃ y c, x = y ++ [c] := by
    rcases List.eq_nil_or_concat x with rfl | ⟨y, c, rfl⟩
    · exact absurd rfl hne
    · exact ⟨y, c, List.concat_eq_append⟩
  obtain rfl : c = 125 := by
    rw [← List.append_assoc] at hfront
    exact List.singleton_inj.mp (List.append_inj' hfront rfl).2
  have hmem : (125 : UInt8) ∈ r ++ (y ++ [125]) := by simp
  refine absurd hblank (parseToken_ne_eof fun hnil => ?_)
  have hspace := List.dropWhile_eq_nil_iff.mp hnil 125 hmem
  exact absurd hspace (by decide)

/-- What ends the program in a part of the file ends it in the whole file. -/
theorem cut_not_crashes (hp : p.Faithful) {db : Database} (hdb : db.HasKeys) {cut x : List UInt8}
    (hsave : dbSaveToFile p db = (.success, some (cut ++ x))) (counter : Int) :
    loadCrashes p counter (some cut) = false := by
  rw [← Bool.not_eq_true, loadCrashes_iff]
  rintro ⟨-, ts, r, hts, hspan⟩
  have hwhole := (loadContent_crash_iff p).mpr
    ⟨ts, r ++ x, hts, hspan.append_right hts.endsObject x⟩
  exact returns_savedFile hp hdb hsave counter hwhole

/-- **A file that has been cut off is never accepted**, wherever the cut falls, and does not end the
program. -/
theorem torn_write_detected (hp : p.Faithful) {db : Database} (hdb : db.HasKeys) {text cut : List UInt8}
    (hsave : dbSaveToFile p db = (.success, some text)) (hcut : cut <+: text) (hne : cut ≠ text)
    (counter : Int) : dbLoadFromFile p counter (some cut) = some none ∧
      loadCrashes p counter (some cut) = false := by
  obtain ⟨x, rfl⟩ := hcut
  have hx : x ≠ [] := by
    rintro rfl
    exact hne (List.append_nil cut).symm
  refine ⟨?_, cut_not_crashes hp hdb hsave counter⟩
  obtain ⟨loaded, hload⟩ := Option.ne_none_iff_exists'.mp
    (dbLoadFromFile_ne_none p counter (some cut))
  cases loaded with
  | none => exact hload
  | some s => exact absurd hload (cut_ne_loaded hp hdb hsave hx counter s)

/-- The file of a database without its last byte. -/
theorem torn_write_detected_people : dbLoadFromFile .epoch 1000
    (some (((dbSaveToFile .epoch peopleStore.db).2.getD []).dropLast)) = some none ∧
      loadCrashes .epoch 1000
        (some (((dbSaveToFile .epoch peopleStore.db).2.getD []).dropLast)) = false := by
  have hkeys : peopleStore.db.HasKeys := by decide
  have htimes : peopleStore.db.TimesConvert .epoch := by decide +kernel
  obtain ⟨text, hsave, -⟩ := dbSaveToFile_reads Platform.epoch_faithful hkeys htimes
  obtain ⟨front, hfront⟩ := dbSaveToFile_ends hsave
  have hne : text.dropLast ≠ text := by
    rw [hfront, List.dropLast_concat]
    exact fun h => absurd (congrArg List.length h) (by simp)
  rw [hsave]
  exact torn_write_detected Platform.epoch_faithful hkeys hsave (List.dropLast_prefix text) hne 1000

end Luminix
