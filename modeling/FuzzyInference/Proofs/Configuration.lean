import FuzzyInference.Proofs.History

/-!
# Configurations that fit

`Config.Fits` says of a configuration what `Config.check` tests. An engine gets its configuration
at setup, where it is tested as a whole, and changes it one setting at a time, where only the new
setting is tested. No setting leads out of the configurations that fit (`Setting.config_fits`), so
an engine has a fitting configuration at any time (`run_fits`).
-/

set_option autoImplicit false

namespace FuzzyInference

namespace Config

/-- Every role has an operator that it admits, the method serves the architecture, and there is a
sample to take. -/
structure Fits (architecture : Architecture) (c : Config) : Prop where
  roles : ∀ role : Role, role.accepts (c.operator role) = true
  method : c.method.supports architecture = true
  points : 0 < c.evalPoints

variable {α : Type} {architecture : Architecture} {c : Config}

theorem checkRole_eq_ok_iff {role : Role} :
    c.checkRole (α := α) role = .ok () ↔ role.accepts (c.operator role) = true := by
  unfold checkRole
  split
  · rename_i haccepts
    simp [haccepts]
  · rename_i hrefuses
    simp [hrefuses]

/-- The check accepts exactly the configurations that fit. -/
theorem check_eq_ok_iff : c.check (α := α) architecture = .ok () ↔ c.Fits architecture := by
  have hroles : Role.all.forM (c.checkRole (α := α)) = .ok () ↔
      ∀ role : Role, role.accepts (c.operator role) = true := by
    rw [forM_eq_ok_iff]
    constructor
    · intro h role
      exact checkRole_eq_ok_iff.1 (h role (by cases role <;> decide))
    · intro h role _
      exact checkRole_eq_ok_iff.2 (h role)
  constructor
  · intro h
    obtain ⟨_, hall, h⟩ := exists_of_bind_ok h
    split at h
    · rename_i hmethod
      split at h
      · cases h
      · rename_i hpoints
        exact ⟨hroles.1 hall, hmethod, Nat.pos_of_ne_zero hpoints⟩
    · cases h
  · rintro ⟨hall, hmethod, hpoints⟩
    unfold check
    rw [hroles.2 hall, if_pos hmethod, if_neg (Nat.pos_iff_ne_zero.1 hpoints)]
    rfl

theorem Fits.bind (h : c.Fits architecture) {op : Operator} {role : Role}
    (haccepts : role.accepts op = true) : (c.bind op role).Fits architecture := by
  have hother : ∀ role', (c.bind op role).operator role' =
      if role' = role then op else c.operator role' := by
    intro role'
    cases role <;> cases role' <;> rfl
  refine ⟨fun role' => ?_, ?_, ?_⟩
  · rw [hother]
    split
    · rename_i heq
      rwa [heq]
    · exact h.roles role'
  · cases role <;> exact h.method
  · cases role <;> exact h.points

end Config

namespace Engine

variable {α : Type} [Scalar α]

theorem perform_architecture (e : Engine α) (c : Command α) :
    (e.perform c).1.architecture = e.architecture := by
  rcases perform_cases e c with rfl | rfl | rfl | ⟨-, -, hsetting⟩
  · rfl
  · obtain ⟨status, hengine, -⟩ := e.inference_eq
    show e.inference.1.architecture = e.architecture
    rw [hengine]
  · show e.defuzzify.1.architecture = e.architecture
    rw [(outputsOnly_defuzzify e).eq]
  · exact hsetting.keeps.architecture

theorem run_architecture (e : Engine α) (cs : List (Command α)) :
    (e.run cs).architecture = e.architecture :=
  run_induction (P := fun e' => e'.architecture = e.architecture)
    (fun e' c h => (perform_architecture e' c).trans h) rfl cs

theorem Setting.config_fits {e e' : Engine α} (h : Setting e e')
    (hfits : e.config.Fits e.architecture) : e'.config.Fits e'.architecture := by
  cases h with
  | operator haccepts => exact hfits.bind haccepts
  | method hsupports => exact ⟨hfits.roles, hsupports, hfits.points⟩
  | evalPoints hpoints => exact ⟨hfits.roles, hfits.method, hpoints⟩
  | _ => exact hfits

theorem perform_fits (e : Engine α) (c : Command α) (h : e.config.Fits e.architecture) :
    (e.perform c).1.config.Fits (e.perform c).1.architecture := by
  rcases perform_cases e c with rfl | rfl | rfl | ⟨-, -, hsetting⟩
  · exact h
  · obtain ⟨status, hengine, -⟩ := e.inference_eq
    show e.inference.1.config.Fits e.inference.1.architecture
    rw [hengine]
    exact h
  · show e.defuzzify.1.config.Fits e.defuzzify.1.architecture
    rw [(outputsOnly_defuzzify e).eq]
    exact h
  · exact hsetting.config_fits h

/-- The configuration fits the architecture at any time after setup. -/
theorem run_fits {w : Width} {architecture : Architecture} {tables : Tables α}
    {stream : List Int} {n : Nat} {config : Config} {e₀ : Engine α}
    (hsetup : setup w architecture tables stream n config = .ok e₀) (cs : List (Command α)) :
    (e₀.run cs).config.Fits (e₀.run cs).architecture := by
  refine run_induction perform_fits ?_ cs
  obtain ⟨-, -, hcheck, rfl⟩ := setup_ok hsetup
  exact Config.check_eq_ok_iff.1 hcheck

end Engine

end FuzzyInference
