import Luminix.Json.File

/-!
# Saving over a file

The serialiser runs before the file is opened, so that a failed allocation leaves the file as it
was, and so does a failed `fopen`.  From then on the old content is gone: a short write leaves the
bytes that were written, whatever the options say (`old_file_survives_iff`).
-/

namespace Luminix

variable {p : Platform} {options : Option JsonSaveOptions} {old : Option (List UInt8)} {db : Database}

/-- The save fails before the file is emptied: the serialiser runs out of memory or does not return,
or the file cannot be opened. -/
def FailsBeforeOpen (p : Platform) (db : Database) : Prop :=
  (∃ e, serializeDatabase p db = .error e) ∨ p.opensForWriting = false

/-- The file is written whole. -/
def WritesAll (p : Platform) (db : Database) : Prop :=
  ∃ s, serializeDatabase p db = .ok s ∧ p.fwrite s.buffer.length = s.buffer.length

/-- The file is already as the write leaves it. -/
def HoldsWritten (p : Platform) (old : Option (List UInt8)) (db : Database) : Prop :=
  ∃ s, serializeDatabase p db = .ok s ∧ old = some (s.buffer.take (p.fwrite s.buffer.length))

/-- A save that fails early leaves the file alone. -/
theorem saveOver_of_failsBeforeOpen (h : FailsBeforeOpen p db) :
    (saveOver p options old db).2 = old := by
  unfold saveOver dbSaveToFile
  cases hs : serializeDatabase p db with
  | error e => rfl
  | ok s =>
    rcases h with ⟨e, herror⟩ | hopen
    · exact absurd (hs.symm.trans herror) nofun
    · dsimp only
      rw [if_neg (by rw [hopen]; exact Bool.false_ne_true)]
      rfl

/-- Any other save leaves the bytes that were written. -/
theorem saveOver_of_opens {s : JsonSerializeState} (hs : serializeDatabase p db = .ok s)
    (hopen : p.opensForWriting = true) : saveOver p options old db =
      (if p.fwrite s.buffer.length = s.buffer.length then .success else .ioOperation,
        some (s.buffer.take (p.fwrite s.buffer.length))) := by
  unfold saveOver dbSaveToFile
  rw [hs]
  dsimp only
  rw [if_pos hopen]
  rfl

/-- **A failed save keeps the old file** exactly if it fails before the file is opened, or if the
file happened to hold what was written. -/
theorem old_file_survives_iff (p : Platform) (options : Option JsonSaveOptions)
    (old : Option (List UInt8)) (db : Database) :
    ((saveOver p options old db).1 ≠ .success → (saveOver p options old db).2 = old) ↔
      FailsBeforeOpen p db ∨ WritesAll p db ∨ HoldsWritten p old db := by
  by_cases hearly : FailsBeforeOpen p db
  · exact ⟨fun _ => .inl hearly, fun _ _ => saveOver_of_failsBeforeOpen hearly⟩
  · obtain ⟨hserialized, hopen⟩ := not_or.mp hearly
    obtain ⟨s, hs⟩ : ∃ s, serializeDatabase p db = .ok s := by
      cases hs : serializeDatabase p db with
      | error e => exact absurd ⟨e, hs⟩ hserialized
      | ok s => exact ⟨s, rfl⟩
    rw [saveOver_of_opens hs (Bool.eq_true_of_not_eq_false hopen)]
    have hunique : ∀ {s'}, serializeDatabase p db = .ok s' → s' = s := fun hs' =>
      Except.ok.inj (hs'.symm.trans hs)
    constructor
    · intro h
      by_cases hall : p.fwrite s.buffer.length = s.buffer.length
      · exact .inr (.inl ⟨s, hs, hall⟩)
      · rw [if_neg hall] at h
        exact .inr (.inr ⟨s, hs, (h nofun).symm⟩)
    · rintro (h | ⟨s', hs', hall⟩ | ⟨s', hs', hold⟩) hfail
      · exact absurd h hearly
      · rw [hunique hs'] at hall
        exact absurd (if_pos hall) hfail
      · rw [hunique hs'] at hold
        exact hold.symm

/-- A disk that takes no byte. -/
def Platform.full : Platform := { Platform.epoch with fwrite := fun _ => 0 }

/-- On a full disk the old content is lost although the write was to be atomic. -/
theorem old_file_lost :
    ¬∀ (p : Platform) (options : JsonSaveOptions) (old : Option (List UInt8)) (db : Database),
      options.atomicWrite = true → (saveOver p (some options) old db).1 ≠ .success →
        (saveOver p (some options) old db).2 = old := by
  intro h
  have hsave : saveOver .full (some ⟨true, false⟩) (some [123, 125]) dbCreate =
      (.ioOperation, some []) := by decide +kernel
  have hkept := h .full ⟨true, false⟩ (some [123, 125]) dbCreate rfl (by rw [hsave]; exact nofun)
  rw [hsave] at hkept
  exact absurd hkept (by decide)

end Luminix
