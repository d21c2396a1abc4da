import Luminix.Json.SerializeBuffer

/-!
# The buffer of the writer

The memory of the writer does what its state says (`append_refines`): an append writes within the
buffer, and the buffer holds the text with a terminator behind it.  So it does after any number of
appends (`serialize_buffer_exact`).
-/

namespace Luminix

open CLib

namespace SerializeMemory

/-- The buffer holds `l` and a terminator, and is as large as its capacity says. -/
structure Holds (m : SerializeMemory) (l : List UInt8) : Prop where
  size_eq : m.size = l.length
  size_lt : m.size + 1 ≤ m.capacity
  length_eq : m.buffer.length = m.capacity
  text : l ++ [0] <+: m.buffer

/-- The memory belongs to the state. -/
def Represents (m : SerializeMemory) (s : JsonSerializeState) : Prop :=
  m.Holds s.buffer ∧ m.capacity = s.capacity

/-- A call fails exactly if the state says so, and leaves what the state says. -/
def Refines (out : Option (Bool × SerializeMemory)) (s : Except ErrorCode JsonSerializeState) :
    Prop :=
  ∃ m, out = some (s.isOk, m) ∧ ∀ s', s = .ok s' → m.Represents s'

variable {p : Platform} {fresh : Nat → UInt8} {fuel : Nat} {m : SerializeMemory}
  {s : JsonSerializeState} {str l : List UInt8}

/-! ### Growing -/

/-- The loop ends after `k` rounds if `k` doublings are enough. -/
theorem growLoop_eq {k c needed fuel' : Nat} (hc : 0 < c) (hk : needed ≤ c * 2 ^ k) (hfuel : k < fuel)
    (hfuel' : needed ≤ c + fuel') (hneeded : needed ≤ 9223372036854775808) :
    growLoop fuel c needed = some (JsonSerializeState.doubleCapacity fuel' c needed) ∧
      needed ≤ JsonSerializeState.doubleCapacity fuel' c needed := by
  have hdone : ∀ {c}, needed ≤ c → ∀ fuel', JsonSerializeState.doubleCapacity fuel' c needed = c := by
    intro c h fuel'
    cases fuel' with
    | zero => rfl
    | succ fuel' => rw [JsonSerializeState.doubleCapacity, if_neg (by omega)]
  induction k generalizing c fuel fuel' with
  | zero =>
    obtain ⟨fuel, rfl⟩ := Nat.exists_eq_add_of_lt hfuel
    rw [pow_zero, Nat.mul_one] at hk
    rw [hdone hk, growLoop, if_neg (by omega)]
    exact ⟨rfl, hk⟩
  | succ k ih =>
    obtain ⟨fuel, rfl⟩ := Nat.exists_eq_add_of_lt hfuel
    rw [growLoop]
    by_cases hlt : c < needed
    · obtain ⟨f, rfl⟩ : ∃ f, fuel' = f + 1 := ⟨fuel' - 1, by omega⟩
      have hmod : c * 2 % 18446744073709551616 = c * 2 := Nat.mod_eq_of_lt (by omega)
      rw [if_pos hlt, hmod, JsonSerializeState.doubleCapacity, if_pos hlt]
      exact ih (by omega) (by rwa [Nat.mul_assoc, ← Nat.pow_succ']) (by omega) (by omega)
    · rw [if_neg hlt, hdone (by omega)]
      exact ⟨rfl, by omega⟩

theorem ensureCapacity_refines (h : m.Represents s) (hfuel : 64 ≤ fuel)
    (hlen : s.buffer.length + str.length < 4611686018427387904) :
    ∃ m', m.ensureCapacity p fresh fuel str.length =
        some ((s.ensureCapacity p str.length).isOk, m') ∧
      ∀ s', s.ensureCapacity p str.length = .ok s' → m'.Represents s' ∧ s'.buffer = s.buffer ∧
        s.buffer.length + str.length + 1 ≤ m'.capacity := by
  obtain ⟨⟨hsize, hlt, hlength, htext⟩, hcapacity⟩ := h
  have hneeded : (m.size + str.length + 1) % 18446744073709551616 =
      s.buffer.length + str.length + 1 := by
    rw [hsize]
    exact Nat.mod_eq_of_lt (by omega)
  rw [ensureCapacity, JsonSerializeState.ensureCapacity, hneeded, hcapacity]
  dsimp only
  by_cases hgrow : s.capacity < s.buffer.length + str.length + 1
  · have hmod : s.capacity * 2 % 18446744073709551616 = s.capacity * 2 := Nat.mod_eq_of_lt (by omega)
    obtain ⟨hloop, hle⟩ := @growLoop_eq fuel 62 (s.capacity * 2)
      (s.buffer.length + str.length + 1) (s.buffer.length + str.length + 1)
      (by omega) (by omega) (by omega) (by omega) (by omega)
    rw [if_pos hgrow, if_pos hgrow, hmod, hloop]
    dsimp only [Option.bind_eq_bind, Option.bind_some]
    by_cases hmalloc : p.malloc (JsonSerializeState.doubleCapacity
        (s.buffer.length + str.length + 1) (s.capacity * 2) (s.buffer.length + str.length + 1)) = true
    · have hfits : m.size + 1 ≤ JsonSerializeState.doubleCapacity
          (s.buffer.length + str.length + 1) (s.capacity * 2) (s.buffer.length + str.length + 1) := by
        omega
      rw [if_pos hmalloc, if_pos hmalloc]
      refine ⟨_, rfl, fun s' hs' => ?_⟩
      obtain rfl := Except.ok.inj hs'
      exact ⟨⟨⟨hsize, hfits, length_realloc _ _ _,
        htext.trans (prefix_realloc (by omega) _)⟩, rfl⟩, rfl, hle⟩
    · rw [if_neg hmalloc, if_neg hmalloc]
      exact ⟨m, rfl, fun s' hs' => by cases hs'⟩
  · rw [if_neg hgrow, if_neg hgrow]
    refine ⟨m, rfl, fun s' hs' => ?_⟩
    obtain rfl := Except.ok.inj hs'
    exact ⟨⟨⟨hsize, hlt, hlength, htext⟩, hcapacity⟩, rfl, by omega⟩

/-! ### Appending -/

/-- Where there is room, the text and its terminator are written behind the text that is there. -/
theorem write_of_room (h : l ++ [0] <+: m.buffer) (hroom : l.length + str.length + 1 ≤ m.buffer.length) :
    ∃ b buffer, writeAt m.buffer l.length str = some b ∧
      writeAt b (l.length + str.length) [0] = some buffer ∧
      l ++ str ++ [0] <+: buffer ∧ buffer.length = m.buffer.length := by
  obtain ⟨t, ht⟩ := (List.prefix_append l [0]).trans h
  have hlength : l.length + t.length = m.buffer.length := by rw [← ht, List.length_append]
  have hend := @writeAt_append _ (l ++ str) (t.drop str.length) [0] (l.length + str.length)
    List.length_append (by rw [List.length_singleton, List.length_drop]; omega)
  refine ⟨l ++ str ++ t.drop str.length, l ++ str ++ [0] ++ (t.drop str.length).drop 1, ?_, ?_, ?_, ?_⟩
  · rw [← ht, writeAt_append rfl (by omega), List.append_assoc]
  · rw [hend, ← List.append_assoc]
    rfl
  · exact List.prefix_append _ _
  · simp only [List.length_append, List.length_drop, List.length_singleton]
    omega

/-- **An append does to the memory what it does to the state.** -/
theorem append_refines (h : m.Represents s) (hfuel : 64 ≤ fuel)
    (hlen : s.buffer.length + str.length < 4611686018427387904) :
    Refines (m.append p fresh fuel str) (s.append p str str.length) := by
  obtain ⟨m', hensure, hstate⟩ := @ensureCapacity_refines p fresh fuel m s str h hfuel hlen
  rw [append, hensure, JsonSerializeState.append]
  cases hs : s.ensureCapacity p str.length with
  | error e => exact ⟨m', rfl, fun s' hs' => by cases hs'⟩
  | ok s' =>
    obtain ⟨⟨⟨hsize, -, hlength, htext⟩, hcapacity⟩, hbuffer, hroom⟩ := hstate s' hs
    obtain ⟨b, buffer, hwrite, hend, hholds, hkept⟩ := @write_of_room m' str s'.buffer htext
      (by rw [hbuffer, hlength]; exact hroom)
    have hnext : (m'.size + str.length) % 18446744073709551616 = s'.buffer.length + str.length := by
      rw [hsize]
      exact Nat.mod_eq_of_lt (by rw [hbuffer]; omega)
    refine ⟨⟨buffer, s'.buffer.length + str.length, m'.capacity⟩, ?_, fun s'' hs'' => ?_⟩
    · have hok : (Except.ok s' : Except ErrorCode JsonSerializeState).isOk = true := rfl
      simp only [Option.bind_eq_bind, Option.bind_some, hok, if_true, hnext]
      rw [hsize, hwrite, Option.bind_some, hend]
      rfl
    · obtain rfl := Except.ok.inj hs''
      rw [List.take_length]
      have hroom' : s'.buffer.length + str.length + 1 ≤ m'.capacity := by rw [hbuffer]; exact hroom
      exact ⟨⟨List.length_append.symm, hroom', hkept.trans hlength, hholds⟩, hcapacity⟩

/-! ### Some appends -/

theorem start_represents (fresh : Nat → UInt8) (level : Nat) (pretty : Bool) :
    (start fresh).Represents ⟨[], jsonBufferSize, level, pretty⟩ := by
  refine ⟨⟨rfl, show 0 + 1 ≤ jsonBufferSize by decide, ?_, ?_⟩, rfl⟩
  · rw [start, List.length_set, List.length_map, List.length_range]
  · have hfirst : ((List.range jsonBufferSize).map fresh).set 0 0 =
        0 :: ((List.range 4095).map Nat.succ).map fresh := by
      rw [jsonBufferSize, List.range_succ_eq_map, List.map_cons, List.set_cons_zero]
    rw [start, hfirst]
    exact List.cons_prefix_cons.mpr ⟨rfl, List.nil_prefix⟩

/-- With memory to be had, an append puts the text behind what is there. -/
theorem exists_append (hmalloc : ∀ n, p.malloc n = true) (s : JsonSerializeState)
    (str : List UInt8) :
    ∃ s', s.append p str str.length = .ok s' ∧ s'.buffer = s.buffer ++ str := by
  rw [JsonSerializeState.append, JsonSerializeState.ensureCapacity]
  dsimp only
  rw [hmalloc, if_pos rfl, List.take_length]
  split_ifs
  · exact ⟨_, rfl, rfl⟩
  · exact ⟨_, rfl, rfl⟩

theorem appendAll_holds (hmalloc : ∀ n, p.malloc n = true) (hfuel : 64 ≤ fuel)
    (texts : List (List UInt8)) (h : m.Represents s)
    (hlen : s.buffer.length + texts.flatten.length < 4611686018427387904) :
    ∃ m', appendAll p fresh fuel texts m = some (true, m') ∧ m'.Holds (s.buffer ++ texts.flatten) := by
  induction texts generalizing m s with
  | nil => exact ⟨m, rfl, by simpa using h.1⟩
  | cons str texts ih =>
    rw [List.flatten_cons, List.length_append] at hlen
    obtain ⟨s', hs', hbuffer⟩ := exists_append hmalloc s str
    obtain ⟨m1, happend, hrep⟩ := @append_refines p fresh fuel m s str h hfuel (by omega)
    rw [hs'] at happend hrep
    obtain ⟨m2, hrest, hholds⟩ := @ih m1 s' (hrep s' rfl)
      (by rw [hbuffer, List.length_append]; omega)
    refine ⟨m2, ?_, ?_⟩
    · rw [appendAll, happend]
      exact hrest
    · rwa [hbuffer, List.append_assoc] at hholds

/-- **After any appends the buffer holds their texts** and a terminator, with room for it, and every
call has written within the buffer as it was. -/
theorem serialize_buffer_exact (p : Platform) (fresh : Nat → UInt8) (fuel : Nat)
    (texts : List (List UInt8)) (hmalloc : ∀ n, p.malloc n = true) (hfuel : 64 ≤ fuel)
    (hlen : texts.flatten.length < 4611686018427387904) :
    ∃ m, appendAll p fresh fuel texts (start fresh) = some (true, m) ∧ m.Holds texts.flatten :=
  appendAll_holds hmalloc hfuel texts (start_represents fresh 0 true)
    (by rwa [List.length_nil, Nat.zero_add])

/-- A text that is larger than twice the buffer. -/
theorem serialize_buffer_large :
    ∃ m, appendAll Platform.epoch (fun _ => 7) 64 [[91], List.replicate 10000 32] (start fun _ => 7) =
      some (true, m) ∧ m.Holds [[91], List.replicate 10000 32].flatten :=
  serialize_buffer_exact Platform.epoch (fun _ => 7) 64 [[91], List.replicate 10000 32]
    (fun _ => rfl) (Nat.le_refl 64) (by
      rw [List.flatten_cons, List.flatten_cons, List.flatten_nil, List.append_nil,
        List.length_append, List.length_replicate]
      decide)

end SerializeMemory

end Luminix
