import Luminix.Equiv.Lexemes
import Luminix.Json.Tools

/-!
# Which texts are scanned to their end

The token loop of `json_get_stats_string` goes on until it reads the end of the text.  In front of a
character that no token starts with, `json_parse_token` does not move, so the loop ends exactly for
the texts that are tokens from beginning to end (`Scannable`).
-/

namespace Luminix

open CLib

/-- Tokens with white space around them, each number as long as it goes, and at the end maybe a
string that is not closed. -/
inductive Scannable : List UInt8 → Prop
  | blank {a : List UInt8} (ha : ∀ c ∈ a, isSpace c = true) : Scannable a
  | unclosed {a b : List UInt8} (ha : ∀ c ∈ a, isSpace c = true) (hb : Unclosed b) :
      Scannable (a ++ 34 :: b)
  | token {a v r : List UInt8} {t : JsonToken} (ha : ∀ c ∈ a, isSpace c = true) (hv : Lexeme t v)
      (hlongest : Longest v r) (hr : Scannable r) : Scannable (a ++ (v ++ r))

theorem Scannable.blank_append {a l : List UInt8} (h : Scannable l)
    (ha : ∀ c ∈ a, isSpace c = true) : Scannable (a ++ l) := by
  have hboth {b : List UInt8} (hb : ∀ c ∈ b, isSpace c = true) : ∀ c ∈ a ++ b, isSpace c = true :=
    fun c hc => (List.mem_append.mp hc).elim (ha c) (hb c)
  cases h with
  | blank hl => exact .blank (hboth hl)
  | unclosed hb hrest =>
    rw [← List.append_assoc]
    exact .unclosed (hboth hb) hrest
  | token hb hv hlongest hr =>
    rw [← List.append_assoc]
    exact .token (hboth hb) hv hlongest hr

/-- A round of the loop, at a token that is not the end. -/
theorem statsLoop_round {t : JsonToken} {l r : List UInt8} (h : jsonParseToken l = (t, r))
    (ht : t ≠ .eof) (fuel : Nat) (stats : JsonStats) :
    statsLoop (fuel + 1) stats l = statsLoop fuel (stats.count t) r := by
  rw [statsLoop, h]
  cases t <;> first | rfl | exact absurd rfl ht

/-- A loop that ends has read the whole text. -/
theorem scannable_of_statsLoop {fuel : Nat} {stats stats' : JsonStats} {l : List UInt8}
    (h : statsLoop fuel stats l = some stats') : Scannable l := by
  induction fuel generalizing stats l with
  | zero => cases h
  | succ fuel ih =>
    have hscanned := scanned l
    generalize hres : jsonParseToken l = res at hscanned
    cases hscanned with
    | eof hl => exact .blank hl
    | @token a v r t ha hv hl =>
      rw [statsLoop_round hres hv.proper.2] at h
      have hparse : jsonParseToken (v ++ r) = (t, r) := by rw [← parseToken_blank ha, ← hl, hres]
      rw [hl]
      exact .token ha hv (longest_of_parseToken (by rw [hparse])) (ih h)
    | unclosed ha hb hl =>
      rw [hl]
      exact .unclosed ha hb
    | stuck ha _ hl =>
      rw [statsLoop_round hres (by simp)] at h
      rw [hl]
      exact (ih h).blank_append ha

theorem Scannable.statsLoop {l : List UInt8} (h : Scannable l) (stats : JsonStats) :
    ∃ fuel stats', statsLoop fuel stats l = some stats' := by
  have hend {a : List UInt8} (ha : ∀ c ∈ a, isSpace c = true) (stats : JsonStats) :
      Luminix.statsLoop 1 stats a = some stats := by
    have hblank := parseToken_blank ha []
    rw [List.append_nil] at hblank
    rw [Luminix.statsLoop, hblank]
    rfl
  induction h generalizing stats with
  | blank ha => exact ⟨1, stats, hend ha stats⟩
  | @unclosed a b ha hb =>
    have hparse : jsonParseToken (a ++ 34 :: b) = (.none, []) := by
      rw [parseToken_blank ha, parseToken_unclosed hb]
    exact ⟨2, stats, by rw [statsLoop_round hparse (by simp), hend (by simp)]; rfl⟩
  | @token a v r t ha hv hlongest _ ih =>
    have hparse : jsonParseToken (a ++ (v ++ r)) = (t, r) := by
      rw [parseToken_blank ha, hv.parseToken hlongest]
    obtain ⟨fuel, stats', h⟩ := ih (stats.count t)
    exact ⟨fuel + 1, stats', by rw [statsLoop_round hparse hv.proper.2, h]⟩

/-- **The scan ends** exactly for the texts that are tokens to their end. -/
theorem jsonGetStatsString_ends_iff (s : CString) :
    (∃ fuel stats, jsonGetStatsString fuel (some s) = some (some stats)) ↔ Scannable s.bytes := by
  constructor
  · rintro ⟨fuel, stats, h⟩
    obtain ⟨stats', hloop, -⟩ := Option.bind_eq_some_iff.mp h
    exact scannable_of_statsLoop hloop
  · intro h
    obtain ⟨fuel, stats, hloop⟩ := h.statsLoop { totalSize := s.length }
    exact ⟨fuel, _, Option.bind_eq_some_iff.mpr ⟨stats, hloop, rfl⟩⟩

/-- In front of an `x` the loop stays for ever. -/
theorem scan_stuck : ¬∀ s : CString,
    ∃ fuel stats, jsonGetStatsString fuel (some s) = some (some stats) := by
  have hstuck (fuel : Nat) (stats : JsonStats) : statsLoop fuel stats (cstr "x").bytes = none := by
    induction fuel generalizing stats with
    | zero => rfl
    | succ fuel ih =>
      have hparse : jsonParseToken (cstr "x").bytes = (.none, (cstr "x").bytes) := by decide
      rw [statsLoop_round hparse (by simp), ih]
  intro h
  obtain ⟨fuel, stats, hx⟩ := h (cstr "x")
  obtain ⟨stats', hloop, -⟩ := Option.bind_eq_some_iff.mp hx
  rw [hstuck] at hloop
  cases hloop

end Luminix
