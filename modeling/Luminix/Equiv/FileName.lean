import Luminix.Utils

/-!
# The name of a file

`get_filename_without_extension` looks for the last dot in the whole path, and not behind the last
slash.  So the name of a file without a dot comes out wrong when there is a slash in front
(`base_name_iff`).
-/

namespace Luminix

open CLib

/-- What stands behind the last slash. -/
def lastPart (l : List UInt8) : List UInt8 := l.rtakeWhile (· ≠ 47)

/-- What stands in front of the last dot, and the whole where there is none. -/
def stem (l : List UInt8) : List UInt8 :=
  if 46 ∈ l then (l.rdropWhile (· ≠ 46)).dropLast else l

/-- The result is the part behind the last slash up to the last dot of that part, and the difference
that is its length is not negative. -/
def ExtractsBaseName (p : Platform) (path : CString) : Prop :=
  (∃ t, getFilenameWithoutExtension p (some path) = some t ∧ t.bytes = stem (lastPart path.bytes)) ∧
  ∀ dot slash : Nat, strrchr 46 path.bytes = some dot → slashIndex path = some slash →
    0 ≤ (dot : Int) - slash - 1

variable {p : Platform} {path : CString} {a b l : List UInt8}

/-! ### The parts of a path -/

theorem lastPart_append_cons (hb : 47 ∉ b) (a : List UInt8) : lastPart (a ++ 47 :: b) = b :=
  rtakeWhile_append_cons hb a

theorem lastPart_eq_self (h : 47 ∉ l) : lastPart l = l :=
  List.rtakeWhile_eq_self_iff.mpr fun _ hc => decide_eq_true fun h0 => h (h0 ▸ hc)

theorem stem_append_cons (hb : 46 ∉ b) (a : List UInt8) : stem (a ++ 46 :: b) = a := by
  rw [stem, if_pos (by simp), rdropWhile_append_cons hb, List.dropLast_concat]

theorem stem_eq_self (h : 46 ∉ l) : stem l = l := if_neg h

theorem slashIndex_slash (hpath : path.bytes = a ++ 47 :: b) (hb : 47 ∉ b) :
    slashIndex path = some a.length := by
  rw [slashIndex, hpath, strrchr_append_cons hb]
  rfl

theorem slashIndex_backslash (hslash : 47 ∉ path.bytes) (hpath : path.bytes = a ++ 92 :: b)
    (hb : 92 ∉ b) : slashIndex path = some a.length := by
  rw [slashIndex, strrchr_eq_none hslash, hpath, strrchr_append_cons hb]
  rfl

theorem sizeOfDiff_eq {dot slash : Nat} (h : slash < dot) :
    sizeOfDiff ((dot : Int) - slash - 1) = dot - slash - 1 := by
  rw [sizeOfDiff, if_neg (by omega)]
  omega

/-! ### What comes out -/

/-- Without a dot, the whole path comes out. -/
theorem extractsBaseName_of_no_dot (hdot : 46 ∉ path.bytes) :
    ExtractsBaseName p path ↔ p.malloc (path.length + 1) = true ∧ 47 ∉ path.bytes := by
  have hnone : strrchr 46 path.bytes = none := strrchr_eq_none hdot
  have hget : getFilenameWithoutExtension p (some path) =
      if p.malloc (path.length + 1) then some path else none := by
    rw [getFilenameWithoutExtension, hnone]
  constructor
  · rintro ⟨⟨t, ht, hbytes⟩, -⟩
    rw [hget] at ht
    split_ifs at ht with hmalloc
    refine ⟨hmalloc, fun hslash => ?_⟩
    obtain rfl := Option.some.inj ht
    obtain ⟨a, b, hpath, hb⟩ := exists_last_append_cons hslash
    rw [hpath, lastPart_append_cons hb, stem_eq_self (fun h => hdot (by simp [hpath, h]))] at hbytes
    have hlength := congrArg List.length hbytes
    rw [List.length_append, List.length_cons] at hlength
    omega
  · rintro ⟨hmalloc, hslash⟩
    refine ⟨⟨path, by rw [hget, if_pos hmalloc], ?_⟩, fun dot slash h => ?_⟩
    · rw [lastPart_eq_self hslash, stem_eq_self hdot]
    · rw [hnone] at h
      cases h

/-- Without a slash and a backslash, what stands in front of the dot comes out. -/
theorem extractsBaseName_of_no_slash (hslash : 47 ∉ path.bytes) (hback : 92 ∉ path.bytes)
    (hdot : 46 ∈ path.bytes) :
    ExtractsBaseName p path ↔ p.malloc ((stem (lastPart path.bytes)).length + 1) = true := by
  obtain ⟨a, b, hpath, hb⟩ := exists_last_append_cons hdot
  have hname : stem (lastPart path.bytes) = a := by
    rw [lastPart_eq_self hslash, hpath, stem_append_cons hb]
  have hindex : slashIndex path = none := by
    rw [slashIndex, strrchr_eq_none hslash, strrchr_eq_none hback]
    rfl
  have hget : getFilenameWithoutExtension p (some path) =
      if p.malloc (a.length + 1) then some (path.truncate a.length) else none := by
    rw [getFilenameWithoutExtension, hpath, strrchr_append_cons hb, hindex]
  rw [ExtractsBaseName, hname, hget]
  constructor
  · rintro ⟨⟨t, ht, -⟩, -⟩
    split_ifs at ht with hmalloc
    exact hmalloc
  · intro hmalloc
    refine ⟨⟨path.truncate a.length, if_pos hmalloc, ?_⟩, fun dot slash _ h => ?_⟩
    · rw [CString.bytes_truncate, hpath, List.take_left]
    · rw [hindex] at h
      cases h

/-- With a slash or a backslash, what stands behind it comes out, up to the dot. -/
theorem getFilenameWithoutExtension_slash {dot slash : Nat} (hdot : strrchr 46 path.bytes = some dot)
    (hslash : slashIndex path = some slash) (hlt : slash < dot) :
    getFilenameWithoutExtension p (some path) = if p.malloc (dot - slash - 1 + 1) then
      some ((path.drop (slash + 1)).truncate (dot - slash - 1)) else none := by
  rw [getFilenameWithoutExtension, hdot, hslash]
  dsimp only
  rw [sizeOfDiff_eq hlt]

/-- With a slash, the name comes out if it has a dot. -/
theorem extractsBaseName_of_slash (hslash : 47 ∈ path.bytes) (hdot : 46 ∈ path.bytes) :
    ExtractsBaseName p path ↔
      p.malloc ((stem (lastPart path.bytes)).length + 1) = true ∧ 46 ∈ lastPart path.bytes := by
  obtain ⟨a, b, hpath, hb⟩ := exists_last_append_cons hslash
  have hpart : lastPart path.bytes = b := by rw [hpath, lastPart_append_cons hb]
  have hindex := slashIndex_slash hpath hb
  rw [ExtractsBaseName, hpart]
  by_cases hname : 46 ∈ b
  · obtain ⟨u, v, rfl, hv⟩ := exists_last_append_cons hname
    have hlast : strrchr 46 path.bytes = some (a.length + 1 + u.length) := by
      rw [hpath, List.append_cons, ← List.append_assoc, strrchr_append_cons hv, List.length_append,
        List.length_append, List.length_singleton]
    have hget := @getFilenameWithoutExtension_slash p path _ _ hlast hindex (by omega)
    have hlength : a.length + 1 + u.length - a.length - 1 = u.length := by omega
    rw [hlength] at hget
    rw [stem_append_cons hv, hget]
    constructor
    · rintro ⟨⟨t, ht, -⟩, -⟩
      split_ifs at ht with hmalloc
      exact ⟨hmalloc, hname⟩
    · rintro ⟨hmalloc, -⟩
      refine ⟨⟨_, if_pos hmalloc, ?_⟩, fun dot slash h h' => ?_⟩
      · show (path.bytes.drop (a.length + 1)).take u.length = u
        rw [hpath, List.append_cons, List.drop_left' (by simp), List.take_left]
      · obtain rfl := Option.some.inj (hlast.symm.trans h)
        obtain rfl := Option.some.inj (hindex.symm.trans h')
        omega
  · refine iff_of_false (fun h => ?_) (fun h => hname h.2)
    obtain ⟨u, v, rfl, hv⟩ := exists_last_append_cons (l := a)
      (by simpa [hpath, hname] using hdot)
    have hlast : strrchr 46 path.bytes = some u.length := by
      rw [hpath, List.append_assoc, List.cons_append, strrchr_append_cons (by simp [hv, hname])]
    have hle := h.2 _ _ hlast hindex
    rw [List.length_append, List.length_cons] at hle
    omega

/-- With a backslash in place of the slash, the name is cut. -/
theorem not_extractsBaseName_of_backslash (hslash : 47 ∉ path.bytes) (hback : 92 ∈ path.bytes)
    (hdot : 46 ∈ path.bytes) : ¬ExtractsBaseName p path := by
  rintro ⟨⟨t, ht, hbytes⟩, hlen⟩
  obtain ⟨a, b, hpath, hb⟩ := exists_last_append_cons hback
  obtain ⟨u, v, hu, hv⟩ := exists_last_append_cons hdot
  have hindex := slashIndex_backslash hslash hpath hb
  have hlast : strrchr 46 path.bytes = some u.length := by rw [hu, strrchr_append_cons hv]
  have hle := hlen _ _ hlast hindex
  rw [getFilenameWithoutExtension_slash hlast hindex (by omega)] at ht
  split_ifs at ht
  obtain rfl := Option.some.inj ht
  have hlength := CString.length_truncate_le (u.length - a.length - 1) (path.drop (a.length + 1))
  rw [CString.length, hbytes, lastPart_eq_self hslash, hu, stem_append_cons hv] at hlength
  omega

/-- **The name of a file comes out without its extension** exactly if there is memory for it, its
path has no slash or a dot behind the last slash, and no backslash is taken for one. -/
theorem base_name_iff (p : Platform) (path : CString) :
    ExtractsBaseName p path ↔
      p.malloc ((stem (lastPart path.bytes)).length + 1) = true ∧
        (47 ∈ path.bytes → 46 ∈ lastPart path.bytes) ∧
        (47 ∉ path.bytes → 92 ∈ path.bytes → 46 ∉ path.bytes) := by
  by_cases hdot : 46 ∈ path.bytes
  · by_cases hslash : 47 ∈ path.bytes
    · rw [extractsBaseName_of_slash hslash hdot]
      simp [hslash]
    · by_cases hback : 92 ∈ path.bytes
      · simp [not_extractsBaseName_of_backslash hslash hback hdot, hslash, hback, hdot]
      · rw [extractsBaseName_of_no_slash hslash hback hdot]
        simp [hslash, hback]
  · rw [extractsBaseName_of_no_dot hdot]
    have hpart : lastPart path.bytes <:+ path.bytes := List.rtakeWhile_suffix _ _
    by_cases hslash : 47 ∈ path.bytes
    · have hpartDot : 46 ∉ lastPart path.bytes := fun h => hdot (hpart.subset h)
      simp [hslash, hpartDot]
    · rw [lastPart_eq_self hslash, stem_eq_self hdot]
      simp [hslash, hdot, CString.length]

/-- A file without a dot in a directory. -/
theorem base_name_no_dot :
    ¬∀ (p : Platform) (path : CString), (∀ n, p.malloc n = true) → ExtractsBaseName p path := by
  intro h
  obtain ⟨⟨t, ht, hbytes⟩, -⟩ := h Platform.epoch (cstr "dir/file") fun _ => rfl
  have hwhole : getFilenameWithoutExtension Platform.epoch (some (cstr "dir/file")) =
      some (cstr "dir/file") := by decide
  obtain rfl := Option.some.inj (hwhole.symm.trans ht)
  exact absurd hbytes (by decide)

end Luminix
