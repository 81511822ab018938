import Mathlib.Logic.Function.Basic
import Mathlib.Data.List.Basic

/-!
# Sequences of writes to a store

A store is a function from addresses to values. `writeAll` carries out a list of writes in order. What
an address holds afterwards depends only on the writes to that address: it is untouched when there are
none, and when all of them carry one value it holds that value.
-/

namespace Store

variable {α β : Type*} [DecidableEq α]

/-- Carry out the writes of a list in order. -/
def writeAll (σ : α → β) (ws : List (α × β)) : α → β :=
  ws.foldl (fun σ w => Function.update σ w.1 w.2) σ

@[simp] theorem writeAll_nil (σ : α → β) : writeAll σ [] = σ := rfl

@[simp] theorem writeAll_cons (σ : α → β) (w : α × β) (ws : List (α × β)) :
    writeAll σ (w :: ws) = writeAll (Function.update σ w.1 w.2) ws := rfl

theorem writeAll_append (σ : α → β) (ws ws' : List (α × β)) :
    writeAll σ (ws ++ ws') = writeAll (writeAll σ ws) ws' := List.foldl_append

/-- An address that no write names keeps its value. -/
theorem writeAll_of_notMem {σ : α → β} {ws : List (α × β)} {x : α} (h : ∀ w ∈ ws, w.1 ≠ x) :
    writeAll σ ws x = σ x := by
  induction ws generalizing σ with
  | nil => rfl
  | cons w ws ih =>
    rw [writeAll_cons, ih fun w' hw' => h w' (List.mem_cons_of_mem _ hw'),
      Function.update_of_ne (h w List.mem_cons_self).symm]

/-- When every write to an address carries the value `v`, the address holds `v` if it was written or
held `v` before. -/
theorem writeAll_of_forall_eq {σ : α → β} {ws : List (α × β)} {x : α} {v : β}
    (hv : ∀ w ∈ ws, w.1 = x → w.2 = v) (hx : σ x = v ∨ ∃ w ∈ ws, w.1 = x) :
    writeAll σ ws x = v := by
  induction ws generalizing σ with
  | nil => simpa using hx
  | cons w ws ih =>
    rw [writeAll_cons]
    refine ih (fun w' hw' => hv w' (List.mem_cons_of_mem _ hw')) ?_
    by_cases hw : w.1 = x
    · left
      rw [← hw, Function.update_self, hv w List.mem_cons_self hw]
    · rcases hx with hx | ⟨w', hw', hx⟩
      · left
        rw [Function.update_of_ne (Ne.symm hw), hx]
      · rcases List.mem_cons.mp hw' with rfl | hmem
        · exact absurd hx hw
        · exact Or.inr ⟨w', hmem, hx⟩

end Store
