/-
  Collette.Prog.Family — families of states, one for each actor, of which a step changes
  the state of one (`Function.update`).

  - `forall_update`: what holds of every actor there is.
  - `related_update`: two families that are changed at the same actor stay related; so one
    stays the image of the other (`map_update`).
  - `congr_update`, `sum_update`: what the change leaves as it was, and what it adds to a
    sum over the actors.
-/

import Mathlib

namespace Collette

variable {ι α β : Type} [DecidableEq ι]

theorem forall_update {f : ι → Option α} {P : ι → α → Prop} {i : ι} {x : α} (hx : P i x)
    (h : ∀ j y, j ≠ i → f j = some y → P j y) (j : ι) (y : α) (hj : Function.update f i (some x) j = some y) :
    P j y := by
  have hall := (Function.forall_update_iff f (a := i) (b := some x) fun j z => ∀ y, z = some y → P j y).mpr
    ⟨fun y hy => Option.some.inj hy ▸ hx, fun j hne y hy => h j y hne hy⟩
  exact hall j y hj

theorem related_update {R : α → β → Prop} {f : ι → α} {g : ι → β} {i : ι} {x : α} {y : β} (hnew : R x y)
    (hold : ∀ j, j ≠ i → R (f j) (g j)) (j : ι) : R (Function.update f i x j) (Function.update g i y j) := by
  by_cases hj : j = i
  · subst hj
    rw [Function.update_self, Function.update_self]
    exact hnew
  · rw [Function.update_of_ne hj, Function.update_of_ne hj]
    exact hold j hj

theorem map_update {f : ι → Option α} {g : ι → Option β} {k : α → β} (h : ∀ i, g i = (f i).map k) (i : ι) (x : α)
    (j : ι) : Function.update g i (some (k x)) j = (Function.update f i (some x) j).map k :=
  related_update (R := fun b a => b = Option.map k a) (x := some (k x)) (y := some x) rfl (fun j _ => h j) j

theorem congr_update {f : ι → α} {g : α → β} {i : ι} {x : α} (h : g x = g (f i)) (j : ι) :
    g (Function.update f i x j) = g (f j) :=
  (Function.forall_update_iff f fun j y => g y = g (f j)).mpr ⟨h, fun _ _ => rfl⟩ j

theorem sum_update [Fintype ι] (f : ι → α) (g : α → Nat) (i : ι) (x : α) :
    ∑ j, g (Function.update f i x j) + g (f i) = ∑ j, g (f j) + g x := by
  have hsame : ∑ j ∈ Finset.univ.erase i, g (Function.update f i x j) = ∑ j ∈ Finset.univ.erase i, g (f j) := by
    refine Finset.sum_congr rfl fun j hj => ?_
    rw [Function.update_of_ne (Finset.ne_of_mem_erase hj)]
  rw [← Finset.add_sum_erase _ _ (Finset.mem_univ i), hsame, Function.update_self,
    ← Finset.add_sum_erase _ (fun j => g (f j)) (Finset.mem_univ i)]
  omega

end Collette
