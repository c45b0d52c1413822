import Comprehension.Store
import Mathlib.Data.List.Basic

/-! Programs with a state that can fail: one step after the other. -/

set_option autoImplicit false

namespace Comprehension.Program

variable {ε σ α β : Type} {program : EStateM ε σ α} {s s' : σ}

theorem bind_ok {a : α} (done : program s = .ok a s') (next : α → EStateM ε σ β) :
    (program >>= next) s = next a s' := by
  change EStateM.bind program next s = _
  rw [EStateM.bind, done]

theorem bind_error {e : ε} (failed : program s = .error e s') (next : α → EStateM ε σ β) :
    (program >>= next) s = .error e s' := by
  change EStateM.bind program next s = _
  rw [EStateM.bind, failed]

theorem exists_of_bind {next : α → EStateM ε σ β} {b : β}
    (done : (program >>= next) s = .ok b s') : ∃ a s₁, program s = .ok a s₁ ∧ next a s₁ = .ok b s' := by
  cases known : program s with
  | ok a s₁ => exact ⟨a, s₁, rfl, (bind_ok known next).symm.trans done⟩
  | error e s₁ => cases (bind_error known next).symm.trans done

theorem read_ok {s : Store} {f : Store → Except Fault α} {a : α} (known : f s = .ok a) :
    StoreM.read f s = .ok a s := by
  rw [StoreM.read, known]

theorem eq_of_read {s s' : Store} {f : Store → Except Fault α} {a : α}
    (done : StoreM.read f s = .ok a s') : f s = .ok a ∧ s' = s := by
  unfold StoreM.read at done
  split at done
  next known =>
    cases done
    exact ⟨known, rfl⟩
  next => cases done

theorem mapM_cons_ok {f : α → EStateM ε σ β} {a : α} {l : List α} {b : β} {bs : List β} {s'' : σ}
    (first : f a s = .ok b s') (rest : l.mapM f s' = .ok bs s'') :
    (a :: l).mapM f s = .ok (b :: bs) s'' := by
  rw [List.mapM_cons, bind_ok first, bind_ok rest]
  rfl

theorem forM_cons (f : α → EStateM ε σ PUnit) (a : α) (l : List α) :
    (a :: l).forM f = f a >>= fun _ => l.forM f := rfl

end Comprehension.Program
