import Luminix.CLib.FixedWidth
import Luminix.Config

/-!
# Reading the configuration back

`load_config` reads a value of at most 127 characters, of which the first is the blank that
`save_config` prints, and no empty one.  So a path comes back exactly if it has a character and no
more than 126 (`config_round_trip_iff`); the other fields always do.
-/

namespace Luminix

open CLib

variable {c d : Config} {k : ConfigKey} {v w : List UInt8}

/-! ### Keys and values -/

theorem ConfigKey.name_ne_nil (k : ConfigKey) : k.name ≠ [] := by cases k <;> decide

theorem ConfigKey.length_name_le (k : ConfigKey) : k.name.length ≤ 21 := by
  cases k <;> decide

theorem ConfigKey.of_mem_name {b : UInt8} (h : b ∈ k.name) :
    isSpace b = false ∧ b ≠ 61 ∧ b ≠ 0 ∧ b ≠ 10 ∧ b ≠ 35 := by
  have hall : ∀ k : ConfigKey, ∀ b ∈ k.name,
      isSpace b = false ∧ b ≠ 61 ∧ b ≠ 0 ∧ b ≠ 10 ∧ b ≠ 35 := by
    intro k
    cases k <;> exact List.forall_iff_forall_mem.mp (by decide)
  exact hall k b h

/-- A key is found by its name. -/
theorem ConfigKey.find_name (k : ConfigKey) :
    ConfigKey.all.find? (fun j => k.name = j.name) = some k := by
  cases k <;> decide

/-- A value that stands on one line, without white space at its ends. -/
structure IsConfigValue (v : List UInt8) : Prop where
  nulFree : (0 : UInt8) ∉ v
  oneLine : (10 : UInt8) ∉ v
  trimmed : strip isSpace v = v

theorem isConfigValue_decimal (n : Int) : IsConfigValue (decimal n) := by
  have hmem : ∀ b ∈ decimal n, b = 45 ∨ isDigit b = true := by
    intro b hb
    rw [decimal] at hb
    split_ifs at hb
    · exact (List.mem_cons.mp hb).imp_right isDigit_of_mem_natDecimal
    · exact .inr (isDigit_of_mem_natDecimal hb)
  have hspace : ∀ b, b = 45 ∨ isDigit b = true → isSpace b = false := by
    rintro b (rfl | hb)
    · rfl
    · exact isSpace_of_isDigit hb
  refine ⟨fun h => ?_, fun h => ?_, strip_eq_self fun b hb => hspace b (hmem b hb)⟩
  · exact absurd (hmem 0 h) (by decide)
  · exact absurd (hmem 10 h) (by decide)

theorem length_decimal_le (n : CInt) : (decimal n).length ≤ 11 := by
  obtain ⟨n, hlow, hhigh⟩ := n
  have hdigits : (natDecimal n.natAbs).length ≤ 10 :=
    (length_natDecimal_le_iff (by decide)).mpr (by norm_num; omega)
  show (decimal n).length ≤ 11
  rw [decimal]
  split_ifs
  · rw [List.length_cons]
    omega
  · omega

theorem decimal_ne_nil (n : Int) : decimal n ≠ [] := by
  rw [decimal]
  split_ifs
  · exact List.cons_ne_nil _ _
  · exact natDecimal_ne_nil _

@[simp] theorem atoiInt_decimal (n : CInt) : atoiInt (decimal n) = n :=
  Subtype.ext (atoi_decimal n.2)

/-! ### One line -/

theorem configLine_eq (name v : List UInt8) :
    configLine name v = name ++ 32 :: 61 :: 32 :: v ++ [10] := by
  have hsep : ascii " = " = [32, 61, 32] := by decide
  rw [configLine, hsep, List.append_assoc name]
  rfl

/-- What becomes of a line before it is scanned. -/
theorem trimmed_line (hnul : (0 : UInt8) ∉ w) (hline : (10 : UInt8) ∉ w) :
    strip isSpace (CString.ofBytes ((w ++ [10]).takeWhile (· ≠ 10))).bytes = strip isSpace w := by
  have hcut : (w ++ [10]).takeWhile (· ≠ 10) = w := by
    have hall : ∀ b ∈ w, decide (b ≠ 10) = true := by
      intro b hb
      refine decide_eq_true ?_
      rintro rfl
      exact hline hb
    rw [List.takeWhile_append_of_pos hall]
    simp
  rw [hcut, CString.bytes_ofBytes hnul]

theorem strip_name (k : ConfigKey) : strip isSpace k.name = k.name :=
  strip_eq_self fun _ hb => (ConfigKey.of_mem_name hb).1

theorem scanKeyValue_entry (k : ConfigKey) (hv : IsConfigValue v) :
    scanKeyValue (k.name ++ 32 :: 61 :: 32 :: v) = some (k.name ++ [32], (32 :: v).take 127) := by
  have hkey : scanSet 63 (· ≠ 61) (k.name ++ [32] ++ 61 :: 32 :: v) =
      some (k.name ++ [32], 61 :: 32 :: v) := by
    refine scanSet_append_cons (fun b hb => decide_eq_true ?_) (by decide) (by simp) ?_ _
    · rcases List.mem_append.mp hb with hb | hb
      · exact (ConfigKey.of_mem_name hb).2.1
      · rw [List.mem_singleton.mp hb]
        decide
    · have hlength := k.length_name_le
      rw [List.length_append, List.length_singleton]
      omega
  have hvalue : scanSet 127 (· ≠ 10) (32 :: v) = some ((32 :: v).take 127, (32 :: v).drop 127) := by
    refine scanSet_of_forall (fun b hb => decide_eq_true ?_) (List.cons_ne_nil _ _) (by decide)
    rintro rfl
    exact hv.oneLine ((List.mem_cons.mp hb).resolve_left (by decide))
  rw [List.append_cons, scanKeyValue, hkey]
  show (scanSet 127 (· ≠ 10) (32 :: v)).bind (fun s => some (k.name ++ [32], s.1)) = _
  rw [hvalue]
  rfl

/-- A line that is not empty and no comment is scanned. -/
theorem readConfigLine_eq (hnul : (0 : UInt8) ∉ w) (hline : (10 : UInt8) ∉ w) {b : UInt8}
    (hhead : (strip isSpace w).head? = some b) (hb : b ≠ 35) (c : Config) :
    (scanKeyValue (strip isSpace w) = none → readConfigLine c (w ++ [10]) = c) ∧
      ∀ key value, scanKeyValue (strip isSpace w) = some (key, value) → strip isSpace key = k.name →
        readConfigLine c (w ++ [10]) = c.set (strip isSpace value) k := by
  have hread : ¬(strip isSpace w = [] ∨ (strip isSpace w).head? = some 35) := by
    rintro (h | h)
    · simp [h] at hhead
    · exact hb (Option.some.inj (hhead.symm.trans h))
  constructor
  · intro hscan
    rw [readConfigLine, trimmed_line hnul hline, if_neg hread, hscan]
  · intro key value hscan hkey
    rw [readConfigLine, trimmed_line hnul hline, if_neg hread, hscan]
    dsimp only
    rw [hkey, ConfigKey.find_name]

theorem ConfigKey.head_name (k : ConfigKey) (l : List UInt8) :
    ∃ b, (k.name ++ l).head? = some b ∧ b ≠ 35 := by
  obtain ⟨b, t, hname⟩ := List.exists_cons_of_ne_nil k.name_ne_nil
  refine ⟨b, by rw [hname]; rfl, ?_⟩
  exact (ConfigKey.of_mem_name (hname ▸ List.mem_cons_self)).2.2.2.2

theorem ConfigKey.notMem_entry (k : ConfigKey) {x : UInt8} (hx : x = 0 ∨ x = 10) (hv : x ∉ v) :
    x ∉ k.name ++ 32 :: 61 :: 32 :: v := by
  intro h
  simp only [List.mem_append, List.mem_cons] at h
  rcases h with h | rfl | rfl | rfl | h
  · have hname := ConfigKey.of_mem_name h
    exact hx.elim hname.2.2.1 hname.2.2.2.1
  · exact absurd hx (by decide)
  · exact absurd hx (by decide)
  · exact absurd hx (by decide)
  · exact hv h

/-- **A line with a value sets its field** to the first 126 characters. -/
theorem readConfigLine_entry (k : ConfigKey) (hv : IsConfigValue v) (hne : v ≠ []) (c : Config) :
    readConfigLine c (configLine k.name v) = c.set (strip isSpace (v.take 126)) k := by
  have htrim : strip isSpace (k.name ++ 32 :: 61 :: 32 :: v) = k.name ++ 32 :: 61 :: 32 :: v := by
    refine strip_eq_self_of_ends (fun b hb => ?_) (fun b hb => ?_)
    · obtain ⟨a, t, hname⟩ := List.exists_cons_of_ne_nil k.name_ne_nil
      rw [hname] at hb
      obtain rfl := Option.some.inj hb
      exact (ConfigKey.of_mem_name (hname ▸ List.mem_cons_self)).1
    · have hlast : (k.name ++ 32 :: 61 :: 32 :: v).getLast? = v.getLast? := by
        rw [List.append_cons, List.append_cons, List.append_cons,
          List.getLast?_append_of_ne_nil _ hne]
      rw [hlast, ← hv.trimmed] at hb
      exact notSep_getLast_strip b hb
  obtain ⟨b, hhead, hb⟩ := k.head_name (32 :: 61 :: 32 :: v)
  have hread := (readConfigLine_eq (k := k) (k.notMem_entry (.inl rfl) hv.nulFree)
    (k.notMem_entry (.inr rfl) hv.oneLine) (htrim.symm ▸ hhead) hb c).2 _ _
      (htrim.symm ▸ scanKeyValue_entry k hv) (by rw [strip_concat rfl, strip_name])
  rw [configLine_eq, hread, List.take_succ_cons, strip_cons rfl]

/-- A line without a value sets nothing. -/
theorem readConfigLine_empty (k : ConfigKey) (c : Config) :
    readConfigLine c (configLine k.name []) = c := by
  have htrim : strip isSpace (k.name ++ [32, 61, 32]) = k.name ++ [32, 61] := by
    cases k <;> decide
  have hscan : scanKeyValue (k.name ++ [32, 61]) = none := by
    cases k <;> decide
  obtain ⟨b, hhead, hb⟩ := k.head_name [32, 61]
  rw [configLine_eq]
  exact (readConfigLine_eq (k := k) (k.notMem_entry (.inl rfl) List.not_mem_nil)
    (k.notMem_entry (.inr rfl) List.not_mem_nil) (htrim.symm ▸ hhead) hb c).1 (htrim.symm ▸ hscan)

/-- A line whose value is short enough sets its field to it. -/
theorem readConfigLine_short (k : ConfigKey) (hv : IsConfigValue v) (hne : v ≠ [])
    (hlength : v.length ≤ 126) (c : Config) : readConfigLine c (configLine k.name v) = c.set v k := by
  rw [readConfigLine_entry k hv hne, List.take_of_length_le hlength, hv.trimmed]

theorem length_scanKeyValue_le {l key value : List UInt8} (h : scanKeyValue l = some (key, value)) :
    value.length ≤ 127 := by
  obtain ⟨⟨key', r⟩, -, hrest⟩ := Option.bind_eq_some_iff.mp h
  dsimp only at hrest
  split at hrest
  · obtain ⟨⟨value', r'⟩, hvalue, hpair⟩ := Option.bind_eq_some_iff.mp hrest
    obtain ⟨-, rfl⟩ := Prod.mk.inj (Option.some.inj hpair)
    exact length_scanSet_le hvalue
  · cases hrest

/-- The path is no longer than what is set. -/
theorem length_path_set {n : Nat} (k : ConfigKey) (hc : c.defaultDatabasePath.length ≤ n)
    (hv : v.length ≤ n) : (c.set v k).defaultDatabasePath.length ≤ n := by
  cases k
  case defaultDatabasePath =>
    have hbytes : (CString.ofBytes v).bytes <+: v := List.takeWhile_prefix _
    exact (List.length_take_le' _ _).trans (hbytes.length_le.trans hv)
  all_goals exact hc

/-- No line sets a path of more than 127 characters. -/
theorem length_path_readConfigLine (hc : c.defaultDatabasePath.length ≤ 127) (l : List UInt8) :
    (readConfigLine c l).defaultDatabasePath.length ≤ 127 := by
  rw [readConfigLine]
  split_ifs
  · exact hc
  · split
    · exact hc
    · next key value hscan =>
      split
      · exact hc
      · exact length_path_set _ hc ((length_strip_le _ _).trans (length_scanKeyValue_le hscan))

/-! ### The file -/

theorem Config.valueText_int (c : Config) (hk : k ≠ .defaultDatabasePath) :
    ∃ n : CInt, c.valueText k = decimal n := by
  cases k
  case defaultDatabasePath => exact absurd rfl hk
  all_goals exact ⟨_, rfl⟩

/-- The lines of the file that is written. -/
theorem fileLines_configText (hline : (10 : UInt8) ∉ c.defaultDatabasePath.bytes)
    (hlength : c.defaultDatabasePath.length ≤ 227) :
    fileLines 256 (configText c) = (ascii "# Database Configuration File" ++ [10]) :: [10] ::
      ConfigKey.all.map fun k => configLine k.name (c.valueText k) := by
  have hcomment : ascii "# Database Configuration File\n\n" =
      ascii "# Database Configuration File" ++ 10 :: ([] ++ [10]) := by decide
  have hvalue : ∀ k, (10 : UInt8) ∉ c.valueText k ∧ (c.valueText k).length ≤ 227 := by
    intro k
    by_cases hk : k = .defaultDatabasePath
    · subst hk
      exact ⟨hline, hlength⟩
    · obtain ⟨n, hn⟩ := c.valueText_int hk
      rw [hn]
      exact ⟨(isConfigValue_decimal n).oneLine, (length_decimal_le n).trans (by decide)⟩
  have hentries := @fileLines_flatMap 256 _ (fun k => ConfigKey.name k ++ 32 :: 61 :: 32 :: c.valueText k)
    ConfigKey.all fun k _ => ⟨k.notMem_entry (.inr rfl) (hvalue k).1, by
      have hname := k.length_name_le
      have hlen := (hvalue k).2
      simp only [List.length_append, List.length_cons]
      omega⟩
  simp only [← configLine_eq] at hentries
  rw [configText, hcomment, List.append_assoc, List.cons_append,
    fileLines_line (by decide) (by decide), List.append_assoc, List.singleton_append,
    fileLines_line List.not_mem_nil (by decide), hentries]
  rfl

/-- What the loop of `load_config` makes of them: only the path can be another one. -/
theorem foldl_configText (hline : (10 : UInt8) ∉ c.defaultDatabasePath.bytes)
    (hlength : c.defaultDatabasePath.length ≤ 227)
    (hd : d = readConfigLine defaultConfig
      (configLine (ConfigKey.name .defaultDatabasePath) c.defaultDatabasePath.bytes)) :
    (fileLines 256 (configText c)).foldl readConfigLine defaultConfig =
      { c with defaultDatabasePath := d.defaultDatabasePath, path_lt := d.path_lt } := by
  have hcomment : readConfigLine defaultConfig (ascii "# Database Configuration File" ++ [10]) =
      defaultConfig := by decide
  have hblank : readConfigLine defaultConfig [10] = defaultConfig := by decide
  have hint : ∀ k, k ≠ .defaultDatabasePath → ∀ d,
      readConfigLine d (configLine (ConfigKey.name k) (c.valueText k)) = d.set (c.valueText k) k := by
    intro k hk d
    obtain ⟨n, hn⟩ := c.valueText_int hk
    rw [hn]
    exact readConfigLine_short k (isConfigValue_decimal n) (decimal_ne_nil n)
      ((length_decimal_le n).trans (by decide)) d
  have hpath : readConfigLine defaultConfig (configLine (ConfigKey.name .defaultDatabasePath)
      (c.valueText .defaultDatabasePath)) = d := hd.symm
  rw [fileLines_configText hline hlength]
  simp only [ConfigKey.all, List.map_cons, List.map_nil, List.foldl_cons, List.foldl_nil]
  rw [hcomment, hblank, hpath, hint .autoSave (by decide), hint .autoBackup (by decide),
    hint .maxHistorySize (by decide), hint .enableColors (by decide), hint .logLevel (by decide),
    hint .maxCacheSize (by decide)]
  simp only [Config.set, Config.valueText, atoiInt_decimal]

theorem loadConfig_saveConfig {p : Platform} (hp : p.Faithful) (files : Files) (filename : CString)
    (c : Config) :
    loadConfig p true (saveConfig p files (some filename) (some c)).2 (some filename) =
      some ((fileLines 256 (configText c)).foldl readConfigLine defaultConfig) := by
  have hfile : (saveConfig p files (some filename) (some c)).2 filename = some (configText c) := by
    rw [saveConfig, if_pos hp.opensForWriting_eq]
    exact Function.update_self filename _ files
  rw [loadConfig, Option.bind_some, hfile]
  dsimp only
  rw [if_pos (hp.malloc_eq _), if_pos rfl]

/-- **The configuration comes back** exactly if its path has a character and no more than 126. -/
theorem config_round_trip_iff {p : Platform} (hp : p.Faithful) (files : Files) (filename : CString)
    (c : Config) (hline : (10 : UInt8) ∉ c.defaultDatabasePath.bytes)
    (htrim : strip isSpace c.defaultDatabasePath.bytes = c.defaultDatabasePath.bytes) :
    loadConfig p true (saveConfig p files (some filename) (some c)).2 (some filename) = some c ↔
      1 ≤ c.defaultDatabasePath.length ∧ c.defaultDatabasePath.length ≤ 126 := by
  have hv : IsConfigValue c.defaultDatabasePath.bytes :=
    ⟨c.defaultDatabasePath.nulFree, hline, htrim⟩
  have hpathLength : c.defaultDatabasePath.bytes.length = c.defaultDatabasePath.length := rfl
  rw [loadConfig_saveConfig hp, Option.some_inj]
  by_cases hlength : c.defaultDatabasePath.length ≤ 227
  · rw [foldl_configText hline hlength rfl]
    by_cases hempty : c.defaultDatabasePath.bytes = []
    · -- the default stays
      refine iff_of_false (fun h => ?_) fun h => ?_
      · have hdefault := congrArg (fun c => c.defaultDatabasePath.bytes) h
        dsimp only at hdefault
        rw [hempty, readConfigLine_empty] at hdefault
        exact absurd hdefault (by decide)
      · rw [← hpathLength, hempty] at h
        exact absurd h.1 (by decide)
    · have hpos : 1 ≤ c.defaultDatabasePath.length := List.length_pos_iff.mpr hempty
      by_cases hshort : c.defaultDatabasePath.length ≤ 126
      · refine iff_of_true ?_ ⟨hpos, hshort⟩
        have hpath : (CString.ofBytes c.defaultDatabasePath.bytes).truncate (maxPathLen - 1) =
            c.defaultDatabasePath := by
          rw [CString.ofBytes_bytes]
          exact CString.truncate_eq_self (Nat.le_pred_of_lt c.path_lt)
        simp only [readConfigLine_short _ hv hempty hshort, Config.set, hpath]
      · refine iff_of_false (fun h => ?_) fun h => hshort h.2
        have hcut := @length_path_set defaultConfig
          (strip isSpace (c.defaultDatabasePath.bytes.take 126)) 126 .defaultDatabasePath
          (by decide) ((length_strip_le _ _).trans (List.length_take_le _ _))
        have hpath := congrArg (fun c => c.defaultDatabasePath) h
        dsimp only at hpath
        rw [← readConfigLine_entry .defaultDatabasePath hv hempty, hpath] at hcut
        exact hshort hcut
  · refine iff_of_false (fun h => hlength ?_) fun h => hlength (h.2.trans (by decide))
    have hkept : ∀ (ls : List (List UInt8)) (d : Config), d.defaultDatabasePath.length ≤ 127 →
        (ls.foldl readConfigLine d).defaultDatabasePath.length ≤ 127 := by
      intro ls
      induction ls with
      | nil => exact fun _ hd => hd
      | cons l ls ih => exact fun d hd => ih _ (length_path_readConfigLine hd l)
    rw [← h]
    exact (hkept _ defaultConfig (by decide)).trans (by decide)

/-- A configuration none of whose values is the default. -/
def serverConfig : Config where
  defaultDatabasePath := cstr "/var/lib/luminix data"
  path_lt := by decide
  autoSave := ⟨0, by decide⟩
  autoBackup := ⟨-3, by decide⟩
  maxHistorySize := ⟨2147483647, by decide⟩
  enableColors := ⟨0, by decide⟩
  logLevel := ⟨7, by decide⟩
  maxCacheSize := ⟨-2147483648, by decide⟩

theorem config_round_trip_server :
    loadConfig .epoch true
        (saveConfig .epoch (fun _ => none) (some (cstr "luminix.conf")) (some serverConfig)).2
        (some (cstr "luminix.conf")) = some serverConfig :=
  (config_round_trip_iff Platform.epoch_faithful (fun _ => none) (cstr "luminix.conf") serverConfig
    (by decide) (by decide)).mpr (by decide)

/-- An empty path. -/
def emptyPathConfig : Config :=
  { defaultConfig with defaultDatabasePath := default, path_lt := by decide }

/-- It comes back as the default. -/
theorem config_round_trip_empty :
    ¬∀ (p : Platform), p.Faithful → ∀ (files : Files) (filename : CString) (c : Config),
      (10 : UInt8) ∉ c.defaultDatabasePath.bytes →
      strip isSpace c.defaultDatabasePath.bytes = c.defaultDatabasePath.bytes →
      loadConfig p true (saveConfig p files (some filename) (some c)).2 (some filename) = some c := by
  intro h
  have hload := h _ Platform.epoch_faithful (fun _ => none) (cstr "f") emptyPathConfig
    (by decide) (by decide)
  rw [loadConfig_saveConfig Platform.epoch_faithful] at hload
  exact absurd hload (by decide +kernel)

end Luminix
