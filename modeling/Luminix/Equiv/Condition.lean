import Luminix.Equiv.Query

/-!
# What the parser makes of a condition

`parse_condition` looks for its six operators one after another in the whole text, and so in the
quoted value as well.  A condition is parsed as what it says exactly if none of the operators that
are looked for before its own stands in the value (`parse_condition_iff`).
-/

namespace Luminix

open CLib

/-! ### Conditions with a quoted value -/

/-- The name of a field: letters, digits and underscores. -/
abbrev FieldName := { l : List UInt8 // Word l ∧ l ≠ [] }

/-- One of the operators. -/
abbrev Operator := { op : List UInt8 // op ∈ conditionOps }

/-- A value between quotes, single or double, that do not occur in it. -/
structure QuotedLiteral where
  quote : UInt8
  content : List UInt8
  isQuote : quote = 39 ∨ quote = 34
  unquoted : quote ∉ content
  nulFree : 0 ∉ content

namespace QuotedLiteral

def bytes (v : QuotedLiteral) : List UInt8 := v.quote :: (v.content ++ [v.quote])

end QuotedLiteral

/-- The field, the operator and the value with blanks between them. -/
def conditionText (f : FieldName) (op : Operator) (v : QuotedLiteral) : List UInt8 :=
  f.1 ++ 32 :: (op.1 ++ 32 :: v.bytes)

/-- The operators that are looked for before this one. -/
def Operator.earlier (op : Operator) : List (List UInt8) := conditionOps.takeWhile (· ≠ op.1)

theorem Operator.conditionOps_eq (op : Operator) :
    ∃ after, conditionOps = op.earlier ++ op.1 :: after := by
  have hall : ∀ op ∈ conditionOps, (conditionOps.dropWhile (· ≠ op)).head? = some op := by
    decide
  obtain ⟨after, hafter⟩ := List.head?_eq_some_iff.mp (hall op.1 op.2)
  exact ⟨after, by rw [Operator.earlier, ← hafter, List.takeWhile_append_dropWhile]⟩

/-! ### Where an operator is found -/

variable {f : FieldName} {v : QuotedLiteral} {o : List UInt8}

/-- The operators consist of `!`, `=`, `<` and `>`. -/
theorem notMem_of_conditionOps (ho : o ∈ conditionOps) :
    o ≠ [] ∧ 32 ∉ o ∧ 39 ∉ o ∧ 34 ∉ o ∧ ∀ c ∈ o, isWordByte c = false := by
  have hall : ∀ o ∈ conditionOps,
      o ≠ [] ∧ 32 ∉ o ∧ 39 ∉ o ∧ 34 ∉ o ∧ ∀ c ∈ o, isWordByte c = false := by
    simp only [← List.forall_iff_forall_mem]
    decide
  exact hall o ho

theorem QuotedLiteral.quote_notMem (v : QuotedLiteral) (ho : o ∈ conditionOps) : v.quote ∉ o := by
  obtain ⟨-, -, hsingle, hdouble, -⟩ := notMem_of_conditionOps ho
  rcases v.isQuote with h | h <;> rwa [h]

/-- In the value, the quotes do not matter. -/
theorem strstr_literal (ho : o ∈ conditionOps) :
    strstr o v.bytes = (strstr o v.content).map (· + 1) := by
  have hne := (notMem_of_conditionOps ho).1
  have hquote := v.quote_notMem ho
  have hfirst := strstr_append_cons hne hquote [] (v.content ++ [v.quote])
  have hlast := strstr_append_cons hne hquote v.content []
  rw [strstr_nil hne, Option.map_none, Option.or_none] at hlast
  rw [List.nil_append, strstr_nil hne, Option.none_or, hlast] at hfirst
  exact hfirst

/-- An operator is looked for behind the field, first in the operator and then in the value. -/
theorem strstr_conditionText (op : Operator) (ho : o ∈ conditionOps) :
    strstr o (conditionText f op v) =
      ((strstr o op.1).or ((strstr o v.content).map (· + (op.1.length + 2)))).map
        (· + (f.1.length + 1)) := by
  obtain ⟨hne, hblank, -, -, hword⟩ := notMem_of_conditionOps ho
  obtain ⟨c, hc⟩ := List.exists_mem_of_ne_nil o hne
  have hfield : strstr o f.1 = none := strstr_eq_none hc (f.2.1.notMem (hword c hc))
  rw [conditionText, strstr_append_cons hne hblank, hfield, Option.none_or,
    strstr_append_cons hne hblank, strstr_literal ho, Option.map_map]
  have hadd : (· + (op.1.length + 1)) ∘ (· + 1) = (· + (op.1.length + 2)) := by
    funext n
    show n + 1 + (op.1.length + 1) = n + (op.1.length + 2)
    omega
  rw [hadd]

/-- An operator does not contain one that is looked for before it. -/
theorem strstr_operator (op : Operator) (ho : o ∈ op.earlier) : strstr o op.1 = none := by
  have hall : ∀ op ∈ conditionOps, ∀ o ∈ conditionOps.takeWhile (· ≠ op), strstr o op = none := by
    decide
  exact hall op.1 op.2 o ho

/-- An earlier operator is found exactly if it stands in the value. -/
theorem strstr_earlier_eq_none_iff (op : Operator) (ho : o ∈ op.earlier) :
    strstr o (conditionText f op v) = none ↔ ¬o <:+: v.content := by
  have hmem : o ∈ conditionOps := (List.takeWhile_prefix _).subset ho
  rw [strstr_conditionText op hmem, strstr_operator op ho, Option.none_or, Option.map_eq_none_iff,
    Option.map_eq_none_iff, ← isSome_strstr_iff, Option.not_isSome_iff_eq_none]

/-- The operator itself is found behind the field. -/
theorem strstr_own (op : Operator) : strstr op.1 (conditionText f op v) = some (f.1.length + 1) := by
  have hhere : strstr op.1 op.1 = some 0 := strstr_of_isPrefixOf (by simp)
  rw [strstr_conditionText op op.2, hhere, Option.some_or, Option.map_some, Nat.zero_add]

/-! ### The parser -/

/-- Cut at its operator, a condition is what it says. -/
theorem cut_conditionText (f : FieldName) (op : Operator) (v : QuotedLiteral) :
    trimSpaces ((conditionText f op v).take (f.1.length + 1)) = f.1 ∧
      stripQuotes (trimSpaces ((conditionText f op v).drop (f.1.length + 1 + op.1.length))) =
        v.content := by
  have hsplit : conditionText f op v = (f.1 ++ [32]) ++ (op.1 ++ 32 :: v.bytes) := by
    rw [conditionText, List.append_assoc]
    rfl
  have hlength : (f.1 ++ [32]).length = f.1.length + 1 := List.length_append
  constructor
  · rw [hsplit, ← hlength, List.take_left]
    exact trimSpaces_blank (List.append_nil f.1).symm (List.nil_append f.1).symm f.2.1 f.2.1 f.2.2
      f.2.2
  · have hquote : isSpace v.quote = false := by
      rcases v.isQuote with h | h <;> rw [h] <;> rfl
    have htrim : trimSpaces (32 :: v.bytes) = v.bytes := by
      have hdrop : (32 :: v.bytes).dropWhile isSpace = v.bytes := by
        rw [List.dropWhile_cons_of_pos rfl]
        apply List.dropWhile_cons_of_neg
        rw [hquote]
        exact Bool.false_ne_true
      have hend : (v.quote :: v.content ++ [v.quote]).rdropWhile isSpace =
          v.quote :: v.content ++ [v.quote] := by
        apply List.rdropWhile_concat_neg
        rw [hquote]
        exact Bool.false_ne_true
      rw [trimSpaces, hdrop]
      exact hend
    have hstrip : stripQuotes v.bytes = v.content := by
      have hq : (v.quote == 39 || v.quote == 34) = true := by
        rcases v.isQuote with h | h <;> rw [h] <;> rfl
      rw [QuotedLiteral.bytes, stripQuotes, hq, List.getLast?_concat, List.dropLast_concat]
      simp
    rw [hsplit, ← hlength, ← List.drop_drop, List.drop_left, List.drop_left, htrim, hstrip]

/-- **When a condition is parsed as what it says**: no operator that is looked for before its own
stands in the value. -/
theorem parse_condition_iff (f : FieldName) (op : Operator) (v : QuotedLiteral) :
    parseCondition (conditionText f op v) = some ⟨f.1, op.1, v.content⟩ ↔
      ∀ o ∈ op.earlier, ¬o <:+: v.content := by
  rw [parseCondition]
  constructor
  · intro h o ho
    obtain ⟨⟨own, i⟩, hfound, hcond⟩ := Option.map_eq_some_iff.mp h
    obtain rfl : own = op.1 := congrArg Condition.op hcond
    obtain ⟨before, a, after, hops, ha, hbefore⟩ := List.findSome?_eq_some_iff.mp hfound
    obtain ⟨j, -, hj⟩ := Option.map_eq_some_iff.mp ha
    obtain rfl : a = op.1 := congrArg Prod.fst hj
    -- what stands in front of the operator in the list are the earlier ones
    have hfront : op.earlier = before := by
      calc op.earlier = (before ++ op.1 :: after).takeWhile (· ≠ op.1) :=
            congrArg (List.takeWhile (· ≠ op.1)) hops
        _ = before ++ (op.1 :: after).takeWhile (· ≠ op.1) := List.takeWhile_append_of_pos ?_
        _ = before := by rw [List.takeWhile_cons_of_neg (by simp), List.append_nil]
      · intro b hb
        rw [decide_eq_true_eq]
        rintro rfl
        have hnone := hbefore op.1 hb
        rw [strstr_own] at hnone
        exact absurd hnone (Option.some_ne_none _)
    have hnone := hbefore o (hfront ▸ ho)
    rw [Option.map_eq_none_iff] at hnone
    exact (strstr_earlier_eq_none_iff op ho).mp hnone
  · intro h
    obtain ⟨hfield, hvalue⟩ := cut_conditionText f op v
    obtain ⟨after, hops⟩ := op.conditionOps_eq
    have hfound : conditionOps.findSome? (fun o =>
        (strstr o (conditionText f op v)).map fun i => (o, i)) = some (op.1, f.1.length + 1) := by
      rw [List.findSome?_eq_some_iff]
      refine ⟨op.earlier, op.1, after, hops, by rw [strstr_own, Option.map_some], ?_⟩
      intro o ho
      rw [(strstr_earlier_eq_none_iff op ho).mpr (h o ho), Option.map_none]
    rw [hfound, Option.map_some]
    dsimp only
    rw [hfield, hvalue]

/-- `'x>=y'` -/
def atLeastLiteral : QuotedLiteral where
  quote := 39
  content := ascii "x>=y"
  isQuote := Or.inl rfl
  unquoted := by decide
  nulFree := by decide

def fieldA : FieldName := ⟨ascii "a", List.forall_iff_forall_mem.mp (by decide), by decide⟩

def equals : Operator := ⟨ascii "=", by decide⟩

/-- `a = 'x>=y'` is cut within the value. -/
theorem operator_in_literal :
    parseCondition (conditionText fieldA equals atLeastLiteral) =
      some ⟨ascii "a = 'x", ascii ">=", ascii "y'"⟩ ∧
    parseCondition (conditionText fieldA equals atLeastLiteral) ≠
      some ⟨fieldA.1, equals.1, atLeastLiteral.content⟩ := by
  decide

end Luminix
