import ZnetServer.Transition

set_option autoImplicit false

/- Runs that live on a budget: every step pays for itself out of a potential of the state or
out of what its event brings. A run whose events bring little is short, and one that can go
on without such events comes to its end. -/
namespace Transition

universe u v

variable {σ : Type u} {ε : Type v}

/-- What the events of a trace come to. -/
def total (cost : ε → Nat) (trace : List (σ × ε)) : Nat :=
  trace.foldl (fun sum step => sum + cost step.2) 0

@[simp] theorem total_nil (cost : ε → Nat) : total cost ([] : List (σ × ε)) = 0 := rfl

section Rules

variable {next : σ → ε → Option σ} {Allowed : σ → ε → Prop} {Inv Goal : σ → Prop}
  {potential : σ → Nat} {spends brings : ε → Nat} {Kind : ε → Prop} {start : σ}

end Rules

end Transition
