import Luminix.Equiv.Query

/-!
# A semicolon at the end

Only the table of a `DROP` ends at a semicolon.  In every other statement it becomes part of the
token, or of the value of the condition, that runs to the end of the text.  So it does not matter
exactly if each token that is read ends before the text does, and there is no condition
(`parse_terminated_iff`).
-/

namespace Luminix

open CLib

/-- The query with a semicolon behind it. -/
def terminated (q : CString) : CString where
  bytes := q.bytes ++ [59]
  nulFree h := by
    rcases List.mem_append.mp h with h | h
    · exact q.nulFree h
    · exact absurd h (by decide)

/-- A token that `parse_query` reads behind a keyword, up to one of the end characters. -/
structure TokenRule where
  keyword : List UInt8
  endCharacters : List UInt8

/-- The first word of each kind of statement. -/
def QueryType.keyword : QueryType → List UInt8
  | .select => ascii "select"
  | .insert => ascii "insert"
  | .update => ascii "update"
  | .delete => ascii "delete"
  | .createTable => ascii "create"
  | .dropTable => ascii "drop"

/-- How the table is read. -/
def QueryType.tableRule : QueryType → TokenRule
  | .select => ⟨ascii "from", ascii " \t\r\n(Ww"⟩
  | .insert => ⟨ascii "into", ascii " \t\r\n("⟩
  | .update => ⟨ascii "update", ascii " \t\r\nS"⟩
  | .delete => ⟨ascii "from", ascii " \t\r\nW"⟩
  | .createTable => ⟨ascii "table", ascii " \t\r\n("⟩
  | .dropTable => ⟨ascii "table", ascii " \t\r\n;"⟩

/-- How the fields of a `SELECT` are read. -/
def fieldsRule : TokenRule := ⟨ascii "select", ascii "Ff"⟩

/-- The tokens that are read of a statement. -/
def QueryType.tokenRules (type : QueryType) : List TokenRule :=
  if type = .select then [type.tableRule, fieldsRule] else [type.tableRule]

namespace TokenRule

/-- The text from the token on, if the keyword is there. -/
def start (r : TokenRule) (l : List UInt8) : Option (List UInt8) :=
  (strstr r.keyword (l.map toLower)).map fun pos =>
    (l.drop (pos + r.keyword.length)).dropWhile isSpace

/-- A semicolon would end the token, or an end character stands behind its start. -/
def Ends (r : TokenRule) (l : List UInt8) : Prop :=
  59 ∈ r.endCharacters ∨ ∀ rest ∈ r.start l, ∃ c ∈ rest, c ∈ r.endCharacters

end TokenRule

/-- The end of the text is neither part of a token nor of a condition. -/
def EndsApart (q : CString) : Prop :=
  (∀ type : QueryType, firstWord q.bytes = type.keyword →
      ∀ r ∈ type.tokenRules, r.Ends (q.bytes.dropWhile isSpace)) ∧
    ¬WhereOp (q.bytes.dropWhile isSpace)

/-! ### Trimming -/

variable {l : List UInt8}

theorem dropWhile_isSpace_concat (l : List UInt8) :
    (l ++ [59]).dropWhile isSpace = l.dropWhile isSpace ++ [59] := by
  rw [List.dropWhile_append]
  split_ifs with hnil
  · rw [List.isEmpty_iff.mp hnil]
    rfl
  · rfl

theorem trimSpaces_concat (l : List UInt8) :
    trimSpaces (l ++ [59]) = l.dropWhile isSpace ++ [59] := by
  rw [trimSpaces, dropWhile_isSpace_concat]
  exact List.rdropWhile_concat_neg _ _ _ Bool.false_ne_true

theorem mem_dropWhile_isSpace {c : UInt8} (hc : isSpace c = false) (h : c ∈ l) :
    c ∈ l.dropWhile isSpace := by
  rw [← List.takeWhile_append_dropWhile (p := isSpace) (l := l), List.mem_append] at h
  refine h.resolve_left fun hmem => ?_
  rw [List.mem_takeWhile_imp hmem] at hc
  exact Bool.false_ne_true hc.symm

/-- What is not white space stays. -/
theorem mem_trimSpaces {c : UInt8} (hc : isSpace c = false) (h : c ∈ l) : c ∈ trimSpaces l := by
  have hdrop := mem_dropWhile_isSpace hc h
  rw [trimSpaces, List.rdropWhile, List.mem_reverse]
  exact mem_dropWhile_isSpace hc (List.mem_reverse.mpr hdrop)

/-! ### Tokens -/

theorem strstr_map_concat {needle : List UInt8} (hne : needle ≠ []) (hsemi : 59 ∉ needle) :
    strstr needle ((l ++ [59]).map toLower) = strstr needle (l.map toLower) := by
  have hsplit : (l ++ [59]).map toLower = l.map toLower ++ 59 :: [] := List.map_append
  rw [hsplit, strstr_append_cons hne hsemi, strstr_nil hne, Option.map_none, Option.or_none]

theorem strstr_le {needle : List UInt8} {pos : Nat} (h : strstr needle (l.map toLower) = some pos)
    (hne : needle ≠ []) : pos + needle.length ≤ l.length := by
  have hlength := (prefix_drop_of_strstr h).length_le
  rw [List.length_drop, List.length_map] at hlength
  have hpos := List.length_pos_of_ne_nil hne
  omega

/-- What `extract_token` makes of the text from the token on. -/
def tokenOf (endCharacters rest : List UInt8) : List UInt8 :=
  trimSpaces (rest.takeWhile fun c => !endCharacters.contains c)

/-- A token that ends before the text does, or else the semicolon is part of it. -/
theorem tokenOf_concat (endCharacters : List UInt8) (rest : List UInt8) :
    ((59 ∈ endCharacters ∨ ∃ c ∈ rest, c ∈ endCharacters) ∧
        tokenOf endCharacters (rest ++ [59]) = tokenOf endCharacters rest) ∨
      (¬(59 ∈ endCharacters ∨ ∃ c ∈ rest, c ∈ endCharacters) ∧
        59 ∈ tokenOf endCharacters (rest ++ [59])) := by
  by_cases hend : ∃ c ∈ rest, c ∈ endCharacters
  · refine Or.inl ⟨Or.inr hend, ?_⟩
    obtain ⟨c, hc, hcend⟩ := hend
    have hshort : (rest.takeWhile fun c => !endCharacters.contains c).length ≠ rest.length := by
      intro hlength
      have hwhole := (List.takeWhile_prefix _).eq_of_length hlength
      exact notMem_takeWhile hcend (hwhole.symm ▸ hc)
    rw [tokenOf, List.takeWhile_append, if_neg hshort]
    rfl
  · have havoids : ∀ c ∈ endCharacters, c ∉ rest := fun c hcend hc => hend ⟨c, hc, hcend⟩
    have htoken : tokenOf endCharacters (rest ++ [59]) =
        trimSpaces (rest ++ [59].takeWhile fun c => !endCharacters.contains c) := by
      rw [tokenOf, takeWhile_avoids havoids]
    by_cases hsemi : 59 ∈ endCharacters
    · refine Or.inl ⟨Or.inl hsemi, ?_⟩
      have hwhole : (rest ++ []).takeWhile (fun c => !endCharacters.contains c) = rest ++ [] :=
        takeWhile_avoids havoids
      rw [List.append_nil] at hwhole
      rw [htoken, List.takeWhile_cons_of_neg (by simp [hsemi]), tokenOf, hwhole, List.append_nil]
    · refine Or.inr ⟨not_or.mpr ⟨hsemi, hend⟩, ?_⟩
      rw [htoken, List.takeWhile_cons_of_pos (by simp [hsemi])]
      exact mem_trimSpaces rfl (List.mem_append_right rest List.mem_cons_self)

/-- What `parse_query` reads by a rule. -/
def TokenRule.token (r : TokenRule) (l : List UInt8) : Option (List UInt8) :=
  extractToken l r.keyword r.endCharacters

/-- The keywords of the rules are words in lower case. -/
def TokenRule.Plain (r : TokenRule) : Prop :=
  r.keyword ≠ [] ∧ 59 ∉ r.keyword ∧ r.keyword.map toLower = r.keyword

theorem TokenRule.token_eq {r : TokenRule} (hr : r.Plain) (l : List UInt8) :
    r.token l = (r.start l).map (tokenOf r.endCharacters) := by
  rw [TokenRule.token, extractToken, hr.2.2, TokenRule.start, Option.map_map]
  rfl

theorem TokenRule.start_concat {r : TokenRule} (hr : r.Plain) (l : List UInt8) :
    r.start (l ++ [59]) = (r.start l).map (· ++ [59]) := by
  rw [TokenRule.start, TokenRule.start, strstr_map_concat hr.1 hr.2.1, Option.map_map]
  cases hpos : strstr r.keyword (l.map toLower) with
  | none => rfl
  | some pos =>
    rw [Option.map_some, Option.map_some, List.drop_append_of_le_length (strstr_le hpos hr.1),
      dropWhile_isSpace_concat]
    rfl

/-- No semicolon comes into a token of a text without one. -/
theorem TokenRule.notMem_token {r : TokenRule} (hr : r.Plain) (hl : 59 ∉ l) {token : List UInt8}
    (h : r.token l = some token) : 59 ∉ token := by
  rw [r.token_eq hr, Option.map_eq_some_iff] at h
  obtain ⟨rest, hrest, rfl⟩ := h
  obtain ⟨pos, -, rfl⟩ := Option.map_eq_some_iff.mp hrest
  intro hmem
  have htake := (List.takeWhile_prefix _).subset (mem_of_mem_trimSpaces hmem)
  exact hl (List.mem_of_mem_drop ((List.dropWhile_suffix isSpace).subset htake))

/-- **The semicolon at the end of a token**: it is not read, or it is part of the token. -/
theorem TokenRule.token_concat {r : TokenRule} (hr : r.Plain) (l : List UInt8) :
    (r.Ends l ∧ r.token (l ++ [59]) = r.token l) ∨
      (¬r.Ends l ∧ ∃ token, r.token (l ++ [59]) = some token ∧ 59 ∈ token) := by
  rw [r.token_eq hr, r.token_eq hr, r.start_concat hr, TokenRule.Ends]
  cases r.start l with
  | none => exact Or.inl ⟨Or.inr (fun rest h => absurd h (Option.not_mem_none rest)), rfl⟩
  | some rest =>
    have hends : (∀ rest' ∈ some rest, ∃ c ∈ rest', c ∈ r.endCharacters) ↔
        ∃ c ∈ rest, c ∈ r.endCharacters := by
      simp
    rw [hends, Option.map_some, Option.map_some, Option.map_some]
    rcases tokenOf_concat r.endCharacters rest with ⟨h, heq⟩ | ⟨h, hmem⟩
    · exact Or.inl ⟨h, congrArg some heq⟩
    · exact Or.inr ⟨h, _, rfl, hmem⟩

/-- A token of a text without a semicolon stays as it is exactly if it ends. -/
theorem TokenRule.token_concat_iff {r : TokenRule} (hr : r.Plain) (hl : 59 ∉ l) :
    r.token (l ++ [59]) = r.token l ↔ r.Ends l := by
  rcases r.token_concat hr l with ⟨hends, heq⟩ | ⟨hends, token, htoken, hmem⟩
  · exact iff_of_true heq hends
  · refine iff_of_false (fun heq => ?_) hends
    exact r.notMem_token hr hl (heq.symm.trans htoken) hmem

/-! ### The fields of a `SELECT` -/

/-- Each character of a text but the commas is found in one of its parts. -/
theorem exists_mem_strtokCommas {c : UInt8} (hc : c ≠ 44) (h : c ∈ l) :
    ∃ name ∈ strtokCommas l, c ∈ name := by
  have hsplit : ∃ name ∈ l.splitOn 44, c ∈ name := by
    induction l with
    | nil => exact absurd h List.not_mem_nil
    | cons d l ih =>
      rw [List.splitOn_cons_eq_if_modifyHead]
      split_ifs with hd
      · have hne : c ≠ d := by rwa [eq_of_beq hd]
        obtain ⟨name, hname, hmem⟩ := ih ((List.mem_cons.mp h).resolve_left hne)
        exact ⟨name, List.mem_cons_of_mem _ hname, hmem⟩
      · obtain ⟨first, others, hcons⟩ := List.exists_cons_of_ne_nil (List.splitOn_ne_nil 44 l)
        rw [hcons, List.modifyHead_cons]
        rcases List.mem_cons.mp h with rfl | h
        · exact ⟨c :: first, List.mem_cons_self, List.mem_cons_self⟩
        · obtain ⟨name, hname, hmem⟩ := ih h
          rw [hcons] at hname
          rcases List.mem_cons.mp hname with rfl | hname
          · exact ⟨d :: name, List.mem_cons_self, List.mem_cons_of_mem d hmem⟩
          · exact ⟨name, List.mem_cons_of_mem _ hname, hmem⟩
  obtain ⟨name, hname, hmem⟩ := hsplit
  refine ⟨name, ?_, hmem⟩
  exact List.mem_filter.mpr ⟨hname, decide_eq_true (List.ne_nil_of_mem hmem)⟩

/-- The fields that a token stands for. -/
def fieldsOf (token : Option (List UInt8)) : List (List UInt8) :=
  match token with
  | some token => (strtokCommas token).map trimSpaces
  | none => []

/-- A semicolon of the token is found in a field. -/
theorem mem_fieldsOf_iff (token : List UInt8) :
    (∃ name ∈ fieldsOf (some token), 59 ∈ name) ↔ 59 ∈ token := by
  constructor
  · rintro ⟨name, hname, hmem⟩
    obtain ⟨part, hpart, rfl⟩ := List.mem_map.mp hname
    exact mem_of_mem_strtokCommas hpart (mem_of_mem_trimSpaces hmem)
  · intro h
    obtain ⟨name, hname, hmem⟩ := exists_mem_strtokCommas (by decide) h
    exact ⟨_, List.mem_map_of_mem hname, mem_trimSpaces rfl hmem⟩

theorem fieldsOf_concat_iff {r : TokenRule} (hr : r.Plain) (hl : 59 ∉ l) :
    fieldsOf (r.token (l ++ [59])) = fieldsOf (r.token l) ↔ r.Ends l := by
  rcases r.token_concat hr l with ⟨hends, heq⟩ | ⟨hends, token, htoken, hmem⟩
  · exact iff_of_true (congrArg fieldsOf heq) hends
  · refine iff_of_false (fun heq => ?_) hends
    rw [htoken] at heq
    obtain ⟨name, hname, hsemi⟩ := (mem_fieldsOf_iff token).mpr hmem
    rw [heq] at hname
    -- the fields of the text without a semicolon do not contain one
    cases hwhole : r.token l with
    | none =>
      rw [hwhole] at hname
      exact absurd hname List.not_mem_nil
    | some whole =>
      rw [hwhole] at hname
      exact r.notMem_token hr hl hwhole ((mem_fieldsOf_iff whole).mp ⟨name, hname, hsemi⟩)

/-! ### The head of the query -/

theorem QueryType.plain_tableRule (type : QueryType) : type.tableRule.Plain := by
  cases type <;> exact ⟨by decide, by decide, by decide⟩

theorem plain_fieldsRule : fieldsRule.Plain := ⟨by decide, by decide, by decide⟩

/-- The fields that are read of a statement. -/
def QueryType.fields (type : QueryType) (l : List UInt8) : List (List UInt8) :=
  if type = .select then fieldsOf (fieldsRule.token l) else []

/-- The keyword at the start decides on what is read. -/
theorem parseHead_eq {type : QueryType} (h : type.keyword <+: l.map toLower) :
    parseHead l = ⟨type, type.tableRule.token l, type.fields l, none⟩ := by
  obtain ⟨rest, hrest⟩ := h
  rw [parseHead]
  dsimp only
  rw [← hrest]
  cases type <;> rfl

/-- A keyword at the start stays there. -/
theorem prefix_concat {w : List UInt8} (h : w <+: l.map toLower) : w <+: (l ++ [59]).map toLower := by
  rw [List.map_append]
  exact h.trans (List.prefix_append _ _)

/-- **The head of the query** stays as it is exactly if each of its tokens ends. -/
theorem parseHead_concat_iff {type : QueryType} (hw : type.keyword <+: l.map toLower)
    (hl : 59 ∉ l) :
    parseHead (l ++ [59]) = parseHead l ↔ ∀ r ∈ type.tokenRules, r.Ends l := by
  have htable := TokenRule.token_concat_iff type.plain_tableRule hl
  have hfields := fieldsOf_concat_iff plain_fieldsRule hl
  rw [parseHead_eq hw, parseHead_eq (prefix_concat hw), QueryType.fields, QueryType.fields,
    QueryType.tokenRules, Query.mk.injEq]
  split_ifs with hselect
  · simp [htable, hfields]
  · simp [htable]

/-! ### The condition -/

/-- With a character at its end that is no quote, a value is not stripped. -/
theorem stripQuotes_concat (l : List UInt8) : stripQuotes (l ++ [59]) = l ++ [59] := by
  cases l with
  | nil => rfl
  | cons q l =>
    rw [List.cons_append, stripQuotes]
    split_ifs with hquote
    · simp only [Bool.and_eq_true, Bool.or_eq_true, List.getLast?_concat] at hquote
      obtain ⟨⟨h | h, -⟩, hlast⟩ := hquote
      all_goals
        rw [eq_of_beq h] at hlast
        exact absurd hlast (by decide)
    · rfl

theorem mem_of_mem_stripQuotes {c : UInt8} (h : c ∈ stripQuotes l) : c ∈ l := by
  cases l with
  | nil => exact h
  | cons q l =>
    rw [stripQuotes] at h
    split_ifs at h with hquote
    · exact List.mem_cons_of_mem q ((List.dropLast_prefix l).subset h)
    · exact h

/-- The value of a condition runs to the end of the text. -/
theorem mem_value_parseCondition {c : Condition} (h : parseCondition (l ++ [59]) = some c) :
    59 ∈ c.value := by
  obtain ⟨⟨op, i⟩, hfound, rfl⟩ := Option.map_eq_some_iff.mp h
  obtain ⟨op', hop, hmap⟩ := List.exists_of_findSome?_eq_some hfound
  obtain ⟨j, hj, heq⟩ := Option.map_eq_some_iff.mp hmap
  obtain ⟨rfl, rfl⟩ := Prod.mk.inj heq
  have hops : ∀ op ∈ conditionOps, op ≠ [] ∧ 59 ∉ op := by decide
  obtain ⟨hne, hsemi⟩ := hops op' hop
  rw [strstr_append_cons hne hsemi, strstr_nil hne, Option.map_none, Option.or_none] at hj
  have hle : j + op'.length ≤ l.length := by
    have hlength := (prefix_drop_of_strstr hj).length_le
    rw [List.length_drop] at hlength
    have hpos := List.length_pos_of_ne_nil hne
    omega
  show 59 ∈ stripQuotes (trimSpaces ((l ++ [59]).drop (j + op'.length)))
  rw [List.drop_append_of_le_length hle, trimSpaces_concat, stripQuotes_concat]
  exact List.mem_append_right _ List.mem_cons_self

theorem notMem_value_parseCondition {c : Condition} (hl : 59 ∉ l) (h : parseCondition l = some c) :
    59 ∉ c.value := by
  obtain ⟨⟨op, i⟩, -, rfl⟩ := Option.map_eq_some_iff.mp h
  exact fun hmem => hl (List.mem_of_mem_drop (mem_of_mem_trimSpaces (mem_of_mem_stripQuotes hmem)))

/-- **The condition** stays as it is exactly if there is none. -/
theorem parseWhere_concat_iff (hl : 59 ∉ l) :
    parseWhere (l ++ [59]) = parseWhere l ↔ ¬WhereOp l := by
  rw [← isSome_parseWhere, parseWhere, parseWhere, strstr_map_concat (by decide) (by decide)]
  cases hpos : strstr (ascii "where") (l.map toLower) with
  | none => simp
  | some pos =>
    have hle : pos + 5 ≤ l.length := strstr_le hpos (by decide)
    dsimp only
    rw [List.drop_append_of_le_length hle, dropWhile_isSpace_concat]
    set part := (l.drop (pos + 5)).dropWhile isSpace with hpart
    have hsemi : 59 ∉ part := fun hmem =>
      hl (List.mem_of_mem_drop ((List.dropWhile_suffix isSpace).subset hmem))
    have hsome : (parseCondition (part ++ [59])).isSome = (parseCondition part).isSome := by
      rw [isSome_parseCondition, isSome_parseCondition, hasOp_append]
      exact Bool.or_false _
    cases hcond : parseCondition part with
    | none =>
      rw [hcond, Option.isSome_none, Option.isSome_eq_false_iff, Option.isNone_iff_eq_none] at hsome
      rw [hsome]
      simp
    | some c =>
      simp only [Option.isSome_some, not_true_eq_false, iff_false]
      exact fun heq => notMem_value_parseCondition hsemi hcond (mem_value_parseCondition heq)

/-! ### The parser -/

theorem conditions_parseHead (l : List UInt8) : (parseHead l).conditions = none := by
  rw [parseHead]
  dsimp only
  split_ifs <;> rfl

theorem parseQuery_eq_iff {q q' : CString} : parseQuery q' = parseQuery q ↔
    parseHead (q'.bytes.dropWhile isSpace) = parseHead (q.bytes.dropWhile isSpace) ∧
      parseWhere (q'.bytes.dropWhile isSpace) = parseWhere (q.bytes.dropWhile isSpace) := by
  have hhead := conditions_parseHead (q.bytes.dropWhile isSpace)
  have hhead' := conditions_parseHead (q'.bytes.dropWhile isSpace)
  rw [parseQuery, parseQuery]
  generalize parseHead (q.bytes.dropWhile isSpace) = head at *
  generalize parseHead (q'.bytes.dropWhile isSpace) = head' at *
  obtain ⟨type, table, fields, conditions⟩ := head
  obtain ⟨type', table', fields', conditions'⟩ := head'
  obtain rfl : conditions = none := hhead
  obtain rfl : conditions' = none := hhead'
  simp [and_assoc]

/-- The query is a statement of one of the kinds. -/
theorem exists_keyword {q : CString} (h : queryValidate q = true) :
    ∃ type : QueryType, firstWord q.bytes = type.keyword := by
  rw [queryValidate] at h
  simp only [List.contains_cons, List.contains_nil, Bool.or_false, Bool.or_eq_true, beq_iff_eq] at h
  rcases h with h | h | h | h | h | h
  · exact ⟨.select, h⟩
  · exact ⟨.insert, h⟩
  · exact ⟨.update, h⟩
  · exact ⟨.delete, h⟩
  · exact ⟨.createTable, h⟩
  · exact ⟨.dropTable, h⟩

theorem keyword_injective {type type' : QueryType} (h : type.keyword = type'.keyword) :
    type = type' := by
  have hall : ∀ type ∈ [QueryType.select, .insert, .update, .delete, .createTable, .dropTable],
      ∀ type' ∈ [QueryType.select, .insert, .update, .delete, .createTable, .dropTable],
      type.keyword = type'.keyword → type = type' := by decide
  exact hall type (by cases type <;> decide) type' (by cases type' <;> decide) h

/-- **When a semicolon at the end does not matter.** -/
theorem parse_terminated_iff (q : CString) (hvalid : queryValidate q = true)
    (hsemi : 59 ∉ q.bytes) : parseQuery (terminated q) = parseQuery q ↔ EndsApart q := by
  obtain ⟨type, htype⟩ := exists_keyword hvalid
  have hl : 59 ∉ q.bytes.dropWhile isSpace := fun hmem =>
    hsemi ((List.dropWhile_suffix isSpace).subset hmem)
  have hpre : type.keyword <+: (q.bytes.dropWhile isSpace).map toLower := by
    rw [← htype]
    exact ((List.take_prefix _ _).trans (List.takeWhile_prefix _)).map toLower
  have hdrop : (terminated q).bytes.dropWhile isSpace = q.bytes.dropWhile isSpace ++ [59] :=
    dropWhile_isSpace_concat q.bytes
  have hkind : (∀ type' : QueryType, firstWord q.bytes = type'.keyword →
      ∀ r ∈ type'.tokenRules, r.Ends (q.bytes.dropWhile isSpace)) ↔
        ∀ r ∈ type.tokenRules, r.Ends (q.bytes.dropWhile isSpace) := by
    constructor
    · exact fun h => h type htype
    · intro h type' htype'
      rwa [keyword_injective (htype'.symm.trans htype)]
  rw [parseQuery_eq_iff, hdrop, parseHead_concat_iff hpre hl, parseWhere_concat_iff hl, EndsApart,
    hkind]

/-- The table of a `DROP` ends at the semicolon. -/
theorem parse_terminated_iff_drop : EndsApart (cstr "DROP TABLE t") :=
  (parse_terminated_iff (cstr "DROP TABLE t") (by decide) (by decide)).mp
    (by decide)

/-- The table of a `SELECT` does not. -/
theorem semicolon_in_table : queryValidate (cstr "SELECT id FROM t") = true ∧
    (parseQuery (cstr "SELECT id FROM t")).table = some (ascii "t") ∧
    (parseQuery (terminated (cstr "SELECT id FROM t"))).table = some (ascii "t;") ∧
    parseQuery (terminated (cstr "SELECT id FROM t")) ≠ parseQuery (cstr "SELECT id FROM t") := by
  decide

end Luminix
