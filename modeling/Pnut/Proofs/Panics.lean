import Pnut.Proofs.Built

/-!
# When parsing panics

On whatever text, `parse_policy` returns a file or an error, unless the parser accepts a number
that does not fit 64 bits.
-/

namespace Pnut.Kafel

open Peg

variable {pest : Pest}

theorem parsePolicy_returns_iff (hpest : pest.Conforms) (input : List Char) :
    (∃ r, Parser.parsePolicy pest input = .ok r) ↔
      ∀ tokens, pest input = .ok tokens →
        ∀ q ∈ nodesOf tokens, q.rule = .number → literalValue q.text < 2 ^ 64 := by
  unfold Parser.parsePolicy
  cases hp : pest input with
  | error err => exact iff_of_true ⟨.error err, rfl⟩ (by simp)
  | ok tokens =>
    obtain ⟨t, ht⟩ := hpest input tokens hp
    have hbuilt := buildFile_built ht
      (show Quotes (fun _ => True) tokens from fun _ _ _ _ _ => trivial)
    have hrange : (∀ tokens', (Except.ok tokens : Except PestError (List Tree)) = .ok tokens' →
        ∀ q ∈ nodesOf tokens', q.rule = .number → literalValue q.text < 2 ^ 64) ↔
          InRange tokens :=
      ⟨fun h => h tokens rfl, fun h _ heq => by cases heq; exact h⟩
    rw [hrange]
    constructor
    · rintro ⟨r, hr⟩
      by_contra hF
      obtain ⟨m, hm⟩ := hbuilt.panics hF
      simp only [hm] at hr
      cases hr
    · intro hF
      obtain ⟨file, hfile, -⟩ := hbuilt.ok hF
      exact ⟨.ok file, by simp only [hfile]; rfl⟩

/-- A define whose value has twenty digits. -/
def longNumber : List Char := "#define A 99999999999999999999".toList

theorem longNumber_panics : (Pest.interpreter silentError).Conforms ∧
    Panics (Parser.parsePolicy (Pest.interpreter silentError) longNumber) ∧
    ¬ ∃ r, Parser.parsePolicy (Pest.interpreter silentError) longNumber = .ok r := by
  have h : Panics (Parser.parsePolicy (Pest.interpreter silentError) longNumber) := by
    decide +kernel
  exact ⟨(Pest.interpreter_faithful _).conforms, h, h.not_ok⟩

theorem longNumber_returns_iff :
    (∃ r, Parser.parsePolicy (Pest.interpreter silentError) longNumber = .ok r) ↔
      ∀ tokens, Pest.interpreter silentError longNumber = .ok tokens →
        ∀ q ∈ nodesOf tokens, q.rule = .number → literalValue q.text < 2 ^ 64 :=
  parsePolicy_returns_iff (Pest.interpreter_faithful _).conforms longNumber

end Pnut.Kafel
