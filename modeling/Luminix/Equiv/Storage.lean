import Luminix.Storage

/-!
# Storages read what was last written

A storage keeps its file by a descriptor of its own (`StorageProgram.Inv`), and seeks before it
reads or writes, so storages on one file do not get in each other's way: however their calls are
interleaved, a byte that is read is the one the last write to its place has put there, through
whichever storage (`storage_read_last`).  Files never shrink, so no storage takes its file for
longer than it is (`storage_size_le`).
-/

namespace Luminix

open CLib Machine

/-! ### The operating system -/

/-- The path of the file that the descriptor stands for. -/
def Kernel.pathOf (k : Kernel) (n : Nat) : Option CString := (k.fds n).map OpenFile.path

theorem Kernel.pathOf_update (k : Kernel) {n : Nat} {path : CString} (h : k.pathOf n = some path)
    (offset : Nat) (files : Files) :
    Kernel.pathOf ⟨files, Function.update k.fds n (some ⟨path, offset⟩)⟩ = k.pathOf := by
  funext m
  unfold Kernel.pathOf
  dsimp only
  by_cases hm : m = n
  · subst m
    rw [Function.update_self]
    exact h.symm
  · rw [Function.update_of_ne hm]

/-- **Opening a file** fails, or gives a descriptor that was free; the bytes of the file stay as they
are, none if there was no file. -/
theorem Kernel.openFile_cases (k : Kernel) (path : CString) (choice : Option Nat) :
    k.openFile path choice = (-1, k) ∨ ∃ (n : Nat) (k' : Kernel), k.fds n = none ∧
      k.openFile path choice = ((n : Int), k') ∧ k'.contents = k.contents ∧
      k'.pathOf = Function.update k.pathOf n (some path) := by
  unfold Kernel.openFile
  cases choice with
  | none => exact .inl rfl
  | some n =>
    dsimp only
    split_ifs with htaken
    · exact .inl rfl
    · refine .inr ⟨n, _, by simpa using htaken, rfl, ?_, ?_⟩
      · funext q
        unfold Kernel.contents
        dsimp only
        by_cases hq : q = path
        · subst q
          rw [Function.update_self]
          rfl
        · rw [Function.update_of_ne hq]
      · funext m
        unfold Kernel.pathOf
        dsimp only
        by_cases hm : m = n
        · subst m
          rw [Function.update_self, Function.update_self]
          rfl
        · rw [Function.update_of_ne hm, Function.update_of_ne hm]

/-- Seeking to a place of the file. -/
theorem Kernel.lseek_of_path {k : Kernel} {fd : Int} {path : CString} (hfd : 0 ≤ fd)
    (h : k.pathOf fd.toNat = some path) (offset : Int) :
    k.lseek fd offset = if offset < 0 then (false, k) else (true, { k with
      fds := Function.update k.fds fd.toNat (some ⟨path, offset.toNat⟩) }) := by
  obtain ⟨f, hf, rfl⟩ := Option.map_eq_some_iff.mp h
  rw [lseek, descriptor, if_pos hfd, hf]

theorem Kernel.descriptor_update (files : Files) (fds : Nat → Option OpenFile) {fd : Int}
    (hfd : 0 ≤ fd) (f : OpenFile) :
    Kernel.descriptor ⟨files, Function.update fds fd.toNat (some f)⟩ fd = some f := by
  rw [Kernel.descriptor, if_pos hfd]
  exact Function.update_self _ _ _

theorem transferred_le (m size : Nat) : transferred m size ≤ size :=
  (Nat.min_le_right _ _).trans (Nat.min_le_left _ _)

/-- **Reading from a storage**: nothing but the place in the file changes. -/
theorem storageRead_cases {k : Kernel} {storage : Storage} {path : CString} (hfd : 0 ≤ storage.fd)
    (h : k.pathOf storage.fd.toNat = some path) (size : Nat) (offset : Int) (limit : Option Nat) :
    let result := storageRead k storage size offset limit
    result.2.2.pathOf = k.pathOf ∧ result.2.2.files = k.files ∧
      (result.1 = -1 ∧ (limit = none ∨ offset < 0) ∨ ∃ m, limit = some m ∧ 0 ≤ offset ∧
        result.2.1 = pread (k.contents path) offset.toNat (transferred m size) ∧
        result.1 = result.2.1.length) := by
  intro result
  have hneg : ¬storage.fd < 0 := Int.not_lt.mpr hfd
  have hresult : result = storageRead k storage size offset limit := rfl
  rw [storageRead, if_neg hneg, Kernel.lseek_of_path hfd h] at hresult
  by_cases hoffset : offset < 0
  · rw [if_pos hoffset] at hresult
    rw [hresult]
    exact ⟨rfl, rfl, .inl ⟨rfl, .inr hoffset⟩⟩
  · rw [if_neg hoffset] at hresult
    dsimp only at hresult
    unfold Kernel.read at hresult
    rw [Kernel.descriptor_update _ _ hfd] at hresult
    cases limit with
    | none =>
      rw [hresult]
      exact ⟨k.pathOf_update h _ _, rfl, .inl ⟨rfl, .inl rfl⟩⟩
    | some m =>
      rw [hresult]
      refine ⟨?_, rfl, .inr ⟨m, rfl, Int.not_lt.mp hoffset, rfl, rfl⟩⟩
      dsimp only
      rw [Function.update_idem]
      exact k.pathOf_update h _ _

/-- **Writing to a storage**: nothing is written, or the first bytes of the data are, and the size
of the storage reaches behind them. -/
theorem storageWrite_cases {k : Kernel} {storage : Storage} {path : CString} (hfd : 0 ≤ storage.fd)
    (h : k.pathOf storage.fd.toNat = some path) (data : List UInt8) (offset : Int)
    (limit : Option Nat) :
    let result := storageWrite k storage data offset limit
    result.2.2.pathOf = k.pathOf ∧
      (result.1 ≤ 0 ∧ result.2.1 = storage ∧ result.2.2.contents = k.contents ∨
        ∃ n, 0 < n ∧ n ≤ data.length ∧ result.1 = (n : Int) ∧ 0 ≤ offset ∧
          result.2.1 = { storage with size := max storage.size (offset.toNat + n) } ∧
          result.2.2.contents = Function.update k.contents path
            (pwrite (k.contents path) offset.toNat (data.take n))) := by
  intro result
  have hneg : ¬storage.fd < 0 := Int.not_lt.mpr hfd
  have hresult : result = storageWrite k storage data offset limit := rfl
  rw [storageWrite, if_neg hneg, Kernel.lseek_of_path hfd h] at hresult
  by_cases hoffset : offset < 0
  · rw [if_pos hoffset] at hresult
    rw [hresult]
    exact ⟨rfl, .inl ⟨Int.negSucc_le_zero 0, rfl, rfl⟩⟩
  · rw [if_neg hoffset] at hresult
    dsimp only at hresult
    unfold Kernel.write at hresult
    rw [Kernel.descriptor_update _ _ hfd] at hresult
    cases limit with
    | none =>
      rw [hresult]
      exact ⟨k.pathOf_update h _ _, .inl ⟨Int.negSucc_le_zero 0, rfl, rfl⟩⟩
    | some m =>
      dsimp only at hresult
      -- whatever is written, the descriptor stays with its file
      have hpath : result.2.2.pathOf = k.pathOf := by
        rw [hresult]
        split_ifs
        all_goals
          dsimp only
          rw [Function.update_idem]
          exact k.pathOf_update h _ _
      have hle := transferred_le m data.length
      have hlength : (data.take (transferred m data.length)).length = transferred m data.length := by
        rw [List.length_take, Nat.min_eq_left hle]
      have hcontents : result.2.2.contents = Function.update k.contents path
          (pwrite (k.contents path) offset.toNat (data.take (transferred m data.length))) := by
        have hfiles : result.2.2.files = Function.update k.files path (some (pwrite
            (k.contents path) offset.toNat (data.take (transferred m data.length)))) := by
          rw [hresult]
          split_ifs <;> rfl
        funext q
        rw [Kernel.contents, hfiles]
        by_cases hq : q = path
        · subst q
          rw [Function.update_self, Function.update_self]
          rfl
        · rw [Function.update_of_ne hq, Function.update_of_ne hq]
          rfl
      have hwritten : result.1 = (transferred m data.length : Int) := by
        simp only [hlength] at hresult
        rw [hresult]
        split_ifs <;> rfl
      have hstorage : result.2.1 = if 0 < (transferred m data.length : Int) ∧
          (storage.size : Int) < offset + transferred m data.length then
            { storage with size := (offset + transferred m data.length).toNat } else storage := by
        simp only [hlength] at hresult
        rw [hresult]
        split_ifs <;> rfl
      refine ⟨hpath, ?_⟩
      -- a `write` that moves nothing must not grow the size, either
      rcases Nat.eq_zero_or_pos (transferred m data.length) with hzero | hpos
      · rw [hzero, List.take_zero, pwrite, if_pos rfl, Function.update_eq_self] at hcontents
        rw [hzero, if_neg (by simp)] at hstorage
        exact .inl ⟨by omega, hstorage, hcontents⟩
      · refine .inr ⟨transferred m data.length, hpos, hle, hwritten, Int.not_lt.mp hoffset, ?_,
          hcontents⟩
        rw [hstorage]
        split_ifs with hgrows
        · congr 1
          omega
        · have hmax : max storage.size (offset.toNat + transferred m data.length) = storage.size := by
            omega
          rw [hmax]

/-! ### Programs -/

namespace StorageProgram

/-- An open storage has a descriptor of its own for the file of its path, which is at least as long
as its size. -/
structure Inv (s : StorageProgram) : Prop where
  opened : ∀ i, 0 ≤ (s.storages i).fd → ∃ path, (s.storages i).path = some path ∧
    s.kernel.pathOf (s.storages i).fd.toNat = some path ∧
      (s.storages i).size ≤ (s.kernel.contents path).length
  distinct : ∀ i j, 0 ≤ (s.storages i).fd → (s.storages i).fd = (s.storages j).fd → i = j

theorem Inv.of_init {s : StorageProgram} (h : Init s) : s.Inv := by
  have hclosed : ∀ i, ¬0 ≤ (s.storages i).fd := by
    intro i
    rw [h.2 i]
    decide
  exact ⟨fun i hi => absurd hi (hclosed i), fun i _ hi _ => absurd hi (hclosed i)⟩

/-- What becomes of the storage of one number if the files only grow and the descriptors of the
others keep their paths. -/
theorem Inv.update {s : StorageProgram} (h : s.Inv) {i : Nat} {storage : Storage} {k : Kernel}
    (hgrow : ∀ path, (s.kernel.contents path).length ≤ (k.contents path).length)
    (hpaths : ∀ j, j ≠ i → 0 ≤ (s.storages j).fd →
      k.pathOf (s.storages j).fd.toNat = s.kernel.pathOf (s.storages j).fd.toNat ∧
        (s.storages j).fd ≠ storage.fd)
    (hself : 0 ≤ storage.fd → ∃ path, storage.path = some path ∧
      k.pathOf storage.fd.toNat = some path ∧ storage.size ≤ (k.contents path).length) :
    Inv ⟨k, Function.update s.storages i storage⟩ := by
  constructor
  · intro j hj
    dsimp only at hj ⊢
    by_cases hi : j = i
    · subst j
      rw [Function.update_self] at hj ⊢
      exact hself hj
    · rw [Function.update_of_ne hi] at hj ⊢
      obtain ⟨path, hpath, hfd, hsize⟩ := h.opened j hj
      exact ⟨path, hpath, (hpaths j hi hj).1.trans hfd, hsize.trans (hgrow path)⟩
  · intro j j' hj heq
    dsimp only at hj heq
    by_cases hi : j = i
    · by_cases hi' : j' = i
      · exact hi.trans hi'.symm
      · subst j
        rw [Function.update_self, Function.update_of_ne hi'] at heq
        rw [Function.update_self] at hj
        exact absurd heq.symm (hpaths j' hi' (heq ▸ hj)).2
    · rw [Function.update_of_ne hi] at hj heq
      by_cases hi' : j' = i
      · subst j'
        rw [Function.update_self] at heq
        exact absurd heq (hpaths j hi hj).2
      · rw [Function.update_of_ne hi'] at heq
        exact h.distinct j j' hj heq

/-- The descriptor is free if no storage has it. -/
theorem Inv.ne_of_free {s : StorageProgram} (h : s.Inv) {n : Nat} (hfree : s.kernel.fds n = none)
    {j : Nat} (hj : 0 ≤ (s.storages j).fd) : (s.storages j).fd.toNat ≠ n := by
  rintro rfl
  obtain ⟨path, -, hpath, -⟩ := h.opened j hj
  rw [Kernel.pathOf, hfree] at hpath
  cases hpath

theorem Inv.step_init {s : StorageProgram} (h : s.Inv) (i : Nat) (path : Option CString)
    (choice : Option Nat) (stat : Bool) :
    (s.step (.init i path choice stat)).Inv ∧
      (s.step (.init i path choice stat)).kernel.contents = s.kernel.contents := by
  have hstep : s.step (.init i path choice stat) =
      ⟨(storageInit s.kernel (s.storages i) path choice stat).2.2, Function.update s.storages i
        (storageInit s.kernel (s.storages i) path choice stat).2.1⟩ := rfl
  rw [hstep]
  unfold storageInit
  cases path with
  | none =>
    dsimp only
    rw [Function.update_eq_self]
    exact ⟨h, rfl⟩
  | some path =>
    dsimp only
    -- either no descriptor is given, or one that was free
    rcases s.kernel.openFile_cases path choice with heq | ⟨n, k, hfree, heq, hcontents, hpaths⟩
    · rw [heq]
      dsimp only
      rw [if_pos (by decide)]
      refine ⟨h.update (fun _ => Nat.le_refl _) (fun j _ hj => ⟨rfl, fun hfd => ?_⟩)
        fun hopen => absurd hopen (by decide : ¬(0 : Int) ≤ -1), rfl⟩
      rw [hfd] at hj
      exact absurd hj (by decide : ¬(0 : Int) ≤ -1)
    · rw [heq]
      dsimp only
      rw [if_neg (by omega)]
      refine ⟨h.update (fun path => ?_) (fun j _ hj => ?_) fun _ => ⟨path, rfl, ?_, ?_⟩, hcontents⟩
      · rw [hcontents]
      · have hne := h.ne_of_free hfree hj
        refine ⟨?_, fun hfd => hne ?_⟩
        · rw [hpaths]
          exact Function.update_of_ne hne _ _
        · rw [hfd]
          rfl
      · rw [hpaths]
        exact Function.update_self _ _ _
      · dsimp only
        split_ifs
        · exact Nat.le_refl _
        · exact Nat.zero_le _

theorem Inv.step_read {s : StorageProgram} (h : s.Inv) (i size : Nat) (offset : Int)
    (limit : Option Nat) :
    (s.step (.read i size offset limit)).Inv ∧
      (s.step (.read i size offset limit)).kernel.contents = s.kernel.contents := by
  by_cases hi : 0 ≤ (s.storages i).fd
  · obtain ⟨path, -, hpath, -⟩ := h.opened i hi
    obtain ⟨hpaths, hfiles, -⟩ := storageRead_cases hi hpath size offset limit
    have hcontents : (s.step (.read i size offset limit)).kernel.contents = s.kernel.contents :=
      congrArg (fun files : Files => fun path => (files path).getD []) hfiles
    refine ⟨⟨fun j hj => ?_, h.distinct⟩, hcontents⟩
    rw [hcontents]
    obtain ⟨path, hpath, hfd, hsize⟩ := h.opened j hj
    exact ⟨path, hpath, (congrFun hpaths _).trans hfd, hsize⟩
  · have hsame : storageRead s.kernel (s.storages i) size offset limit = (-1, [], s.kernel) :=
      if_pos (Int.not_le.mp hi)
    rw [StorageProgram.step, hsame]
    exact ⟨h, rfl⟩

theorem Inv.step_close {s : StorageProgram} (h : s.Inv) (i : Nat) :
    (s.step (.close i)).Inv ∧ (s.step (.close i)).kernel.contents = s.kernel.contents := by
  have hstep : s.step (.close i) = ⟨(storageClose s.kernel (s.storages i)).2,
      Function.update s.storages i .closed⟩ := rfl
  have hcontents : (storageClose s.kernel (s.storages i)).2.contents = s.kernel.contents := by
    unfold storageClose
    dsimp only
    split_ifs <;> rfl
  rw [hstep]
  refine ⟨h.update (fun path => ?_) (fun j hji hj => ⟨?_, fun hfd => ?_⟩) fun hopen => ?_, hcontents⟩
  · rw [hcontents]
  · unfold storageClose
    dsimp only
    split_ifs with hi
    · have hne : (s.storages j).fd.toNat ≠ (s.storages i).fd.toNat := fun heq =>
        hji (h.distinct j i hj (by omega))
      unfold Kernel.pathOf Kernel.close
      dsimp only
      rw [Function.update_of_ne hne]
    · rfl
  · exact absurd (hfd ▸ hj) (by decide)
  · exact absurd hopen (by decide)

theorem Inv.step_write {s : StorageProgram} (h : s.Inv) (i : Nat) (data : List UInt8) (offset : Int)
    (limit : Option Nat) :
    (s.step (.write i data offset limit)).Inv ∧
      ∀ path, (s.step (.write i data offset limit)).kernel.contents path =
        pwrites (s.kernel.contents path)
          (((s.written (.write i data offset limit)).toList.filter (·.1 = path)).map Prod.snd) := by
  have hstep : s.step (.write i data offset limit) =
      ⟨(storageWrite s.kernel (s.storages i) data offset limit).2.2, Function.update s.storages i
        (storageWrite s.kernel (s.storages i) data offset limit).2.1⟩ := rfl
  rw [hstep, written]
  dsimp only
  by_cases hi : 0 ≤ (s.storages i).fd
  · obtain ⟨path, hpath, hfd, hsize⟩ := h.opened i hi
    obtain ⟨hpaths, hcases⟩ := storageWrite_cases hi hfd data offset limit
    -- no two storages share a descriptor, so the others are out of reach
    have hothers : ∀ j, j ≠ i → 0 ≤ (s.storages j).fd → (s.storages j).fd ≠ (s.storages i).fd :=
      fun j hji hj hfds => hji (h.distinct j i hj hfds)
    rcases hcases with ⟨hresult, hstorage, hcontents⟩ | ⟨n, hn, hle, hresult, hoffset, hstorage,
      hcontents⟩
    · rw [if_neg (by omega), hcontents, hstorage]
      refine ⟨h.update (fun q => ?_) (fun j hji hj => ⟨congrFun hpaths _, hothers j hji hj⟩)
        fun _ => ⟨path, hpath, (congrFun hpaths _).trans hfd, ?_⟩, fun q => rfl⟩
      · rw [hcontents]
      · rwa [hcontents]
    · have htake : data.take n ≠ [] := by
        rw [ne_eq, List.take_eq_nil_iff]
        rintro (rfl | rfl)
        · omega
        · rw [List.length_nil] at hle
          omega
      rw [if_pos (by omega), hcontents, hstorage, hresult, hpath]
      refine ⟨h.update (fun q => ?_) (fun j hji hj => ⟨congrFun hpaths _, hothers j hji hj⟩)
        fun _ => ⟨path, rfl, (congrFun hpaths _).trans hfd, ?_⟩, fun q => ?_⟩
      · rw [hcontents]
        by_cases hq : q = path
        · subst q
          rw [Function.update_self]
          exact length_le_pwrite _ _ _
        · rw [Function.update_of_ne hq]
      · rw [hcontents, Function.update_self, length_pwrite htake, List.length_take,
          Nat.min_eq_left hle]
        exact max_le_max_right _ hsize
      · by_cases hq : q = path
        · subst q
          rw [Function.update_self]
          simp [pwrites]
        · rw [Function.update_of_ne hq]
          simp [pwrites, Ne.symm hq]
  · have hsame : storageWrite s.kernel (s.storages i) data offset limit =
        (-1, s.storages i, s.kernel) := if_pos (Int.not_le.mp hi)
    rw [hsame]
    dsimp only
    rw [Function.update_eq_self]
    exact ⟨h, fun q => rfl⟩

/-- **A call keeps the invariant**, and the bytes of each file are the ones it writes. -/
theorem Inv.step {s : StorageProgram} (h : s.Inv) (c : StorageCall) :
    (s.step c).Inv ∧ ∀ path, (s.step c).kernel.contents path = pwrites (s.kernel.contents path)
      (((s.written c).toList.filter (·.1 = path)).map Prod.snd) := by
  cases c with
  | init i path choice stat =>
    obtain ⟨hinv, hcontents⟩ := h.step_init i path choice stat
    exact ⟨hinv, congrFun hcontents⟩
  | read i size offset limit =>
    obtain ⟨hinv, hcontents⟩ := h.step_read i size offset limit
    exact ⟨hinv, congrFun hcontents⟩
  | close i =>
    obtain ⟨hinv, hcontents⟩ := h.step_close i
    exact ⟨hinv, congrFun hcontents⟩
  | write i data offset limit => exact h.step_write i data offset limit

theorem Inv.run {s : StorageProgram} (h : s.Inv) (calls : List StorageCall) :
    (Machine.run StorageProgram.step s calls).Inv ∧
      ∀ path, (Machine.run StorageProgram.step s calls).kernel.contents path =
        pwrites (s.kernel.contents path) (s.writes path calls) := by
  induction calls generalizing s with
  | nil => exact ⟨h, fun _ => rfl⟩
  | cons c calls ih =>
    obtain ⟨hinv, hcontents⟩ := h.step c
    obtain ⟨hinv', hcontents'⟩ := ih hinv
    refine ⟨hinv', fun path => ?_⟩
    rw [run_cons, hcontents', hcontents, writes, pwrites, pwrites, pwrites, List.foldl_append]

end StorageProgram

/-! ### All interleavings -/

/-- **A storage reads what was last written.**  After any calls on any storages, the bytes that a
read through an open storage yields are as many as it says, and each of them is the one the last
write to its place has put there, through any storage with the same path; where no write has been it
is the byte of the file at the start, or zero. -/
theorem storage_read_last {s : StorageProgram} (h : s.Init) (calls : List StorageCall) {i : Nat}
    {path : CString} (hopen : 0 ≤ ((run StorageProgram.step s calls).storages i).fd)
    (hpath : ((run StorageProgram.step s calls).storages i).path = some path) (size : Nat)
    (offset : Int) (limit : Option Nat) :
    let s' := run StorageProgram.step s calls
    let result := storageRead s'.kernel (s'.storages i) size offset limit
    0 ≤ result.1 → result.2.1.length = result.1 ∧ ∀ j < result.2.1.length,
      result.2.1[j]? = some ((lastWritten (offset.toNat + j) (s.writes path calls)).getD
        (byteAt (s.kernel.contents path) (offset.toNat + j))) := by
  intro s' result hresult
  obtain ⟨hinv, hcontents⟩ := (StorageProgram.Inv.of_init h).run calls
  obtain ⟨path', hpath', hfd, -⟩ := hinv.opened i hopen
  obtain rfl : path' = path := Option.some.inj (hpath'.symm.trans hpath)
  obtain ⟨-, -, ⟨hfail, -⟩ | ⟨m, -, -, hbytes, hlength⟩⟩ :=
    storageRead_cases hopen hfd size offset limit
  · exact absurd (hfail ▸ hresult) (by decide)
  · refine ⟨hlength.symm, fun j hj => ?_⟩
    rw [show result.2.1 = _ from hbytes] at hj ⊢
    rw [getElem?_pread hj, hcontents, byteAt_pwrites]

/-- No file, and no open storage. -/
def emptyProgram : StorageProgram := ⟨⟨fun _ => none, fun _ => none⟩, fun _ => .closed⟩

theorem emptyProgram_init : emptyProgram.Init := ⟨fun _ => rfl, fun _ => rfl⟩

/-- Two storages on one file. -/
def twoStorages : List StorageCall :=
  [.init 0 (some (cstr "db")) (some 3) true, .init 1 (some (cstr "db")) (some 4) true,
    .write 0 [1, 2, 3] 2 (some 10), .write 1 [9] 3 (some 10)]

/-- The first reads a byte of its own and one that the second has written over it. -/
theorem storage_read_last_two :
    let s' := run StorageProgram.step emptyProgram twoStorages
    let bytes := (storageRead s'.kernel (s'.storages 0) 10 0 (some 10)).2.1
    bytes.length = 5 ∧ bytes[2]? = some 1 ∧ bytes[3]? = some 9 := by
  intro s' bytes
  have hread := storage_read_last emptyProgram_init twoStorages (i := 0) (by decide) rfl 10 0
    (some 10)
  obtain ⟨hlength, hbytes⟩ := hread (by decide)
  have hfive : bytes.length = 5 := by decide
  exact ⟨hfive, (hbytes 2 (by decide)).trans (by decide), (hbytes 3 (by decide)).trans (by decide)⟩

/-- **No storage takes its file for longer than it is**, whoever else writes to it; so a read of what
lies within its size is complete if the kernel moves all that is there. -/
theorem storage_size_le {s : StorageProgram} (h : s.Reachable) {i : Nat}
    (hopen : 0 ≤ (s.storages i).fd) :
    (∃ path, (s.storages i).path = some path ∧
      (s.storages i).size ≤ (s.kernel.contents path).length) ∧
    ∀ (size offset m : Nat), offset + size ≤ (s.storages i).size → size ≤ m → size ≤ maxTransfer →
      (storageRead s.kernel (s.storages i) size offset (some m)).1 = size := by
  have hinv : s.Inv :=
    Reach.invariant (fun _ h0 => .of_init h0) (fun _ c hs _ => (hs.step c).1) h
  obtain ⟨path, hpath, hfd, hsize⟩ := hinv.opened i hopen
  refine ⟨⟨path, hpath, hsize⟩, fun size offset m hin hm hmax => ?_⟩
  obtain ⟨-, -, ⟨-, hno | hneg⟩ | ⟨m', hm', -, hbytes, hlength⟩⟩ :=
    storageRead_cases hopen hfd size offset (some m)
  · cases hno
  · omega
  · obtain rfl : m = m' := Option.some.inj hm'
    rw [hlength, hbytes, length_pread, transferred, Nat.min_eq_left hmax, Nat.min_eq_right hm,
      Int.toNat_natCast]
    omega

/-- The second storage does not know of what the first has written, but it is there. -/
theorem storage_size_le_two :
    let s' := run StorageProgram.step emptyProgram twoStorages
    (s'.storages 1).size = 4 ∧
      (storageRead s'.kernel (s'.storages 1) 2 2 (some 10)).1 = (2 : Nat) := by
  intro s'
  have hreach : s'.Reachable :=
    Reach.run (.start emptyProgram_init) (Admits.of_forall (fun _ _ => trivial) _ _)
  have hsize : (s'.storages 1).size = 4 := by decide
  exact ⟨hsize, (storage_size_le hreach (i := 1) (by decide)).2 2 2 10 (by omega) (by decide)
    (by decide)⟩

end Luminix
