/-
  Collette.Table.Rows — tables of keyed records, and what a store that follows one holds.

  A table maps keys to records and files every record under its own key (`Keyed`). A
  store that follows the table holds an entry for each record, at a place computed from
  the record (`Rows M φ ψ`: at `φ r`, a value satisfying `ψ r`). A primary store places
  records by key; an index by something else, and two records may want one place.

  - `rows_put`: the rows of a table with `new` put in are the row of `new` and the rows
    of the others.
  - `rows_del_of_mem`, `rows_del_of_none`: the rows of the others are the rows without
    the one of the old record, if there was one, as long as no other record shares its
    place.
  - `Clash`: some other record already has the place of `new`.
-/

import Mathlib

namespace Collette.Table

variable {κ ρ α β : Type*}

/-- Each record is filed under its key. -/
def Keyed (key : ρ → κ) (M : κ → Option ρ) : Prop := ∀ o r, M o = some r → key r = o

/-- The record is in the table. -/
def Mem (key : ρ → κ) (M : κ → Option ρ) (r : ρ) : Prop := M (key r) = some r

open Classical in
/-- The table with `r` under its key. -/
noncomputable def put (key : ρ → κ) (M : κ → Option ρ) (r : ρ) : κ → Option ρ := fun o =>
  if o = key r then some r else M o

open Classical in
/-- The table with nothing under `o`. -/
noncomputable def del (M : κ → Option ρ) (o : κ) : κ → Option ρ := fun o' => if o' = o then none else M o'

/-- The entries of a store that places `r` at `φ r` with a value in `ψ r`. -/
def Rows (key : ρ → κ) (M : κ → Option ρ) (φ : ρ → α) (ψ : ρ → β → Prop) (k : α) (v : β) : Prop :=
  ∃ r, Mem key M r ∧ k = φ r ∧ ψ r v

/-- A record with another key has the place of `new`. -/
def Clash (key : ρ → κ) (M : κ → Option ρ) (φ : ρ → α) (new : ρ) : Prop :=
  ∃ r, Mem key M r ∧ key r ≠ key new ∧ φ r = φ new

section Rows

variable {key : ρ → κ} {M : κ → Option ρ} {φ : ρ → α} {ψ : ρ → β → Prop} {new old : ρ} {o : κ}

theorem Keyed.mem (hM : Keyed key M) {r : ρ} (h : M o = some r) : Mem key M r := by
  rw [Mem, hM o r h]; exact h

@[simp] theorem put_self (key : ρ → κ) (M : κ → Option ρ) (r : ρ) : put key M r (key r) = some r := if_pos rfl

theorem put_ne (h : o ≠ key new) : put key M new o = M o := if_neg h

@[simp] theorem del_self (M : κ → Option ρ) (o : κ) : del M o o = none := if_pos rfl

theorem del_ne {o' : κ} (h : o' ≠ o) : del M o o' = M o' := if_neg h

theorem del_eq_self (h : M o = none) : del M o = M := by
  funext o'
  by_cases e : o' = o
  · rw [e, del_self, h]
  · exact del_ne e

theorem keyed_empty (key : ρ → κ) : Keyed key fun _ => none := fun o r h => by cases h

theorem Keyed.put (hM : Keyed key M) (new : ρ) : Keyed key (put key M new) := by
  intro o r h
  by_cases e : o = key new
  · rw [e, put_self] at h
    rw [e, Option.some.inj h]
  · rw [put_ne e] at h
    exact hM o r h

theorem Keyed.del (hM : Keyed key M) (o : κ) : Keyed key (del M o) := by
  intro o' r h
  by_cases e : o' = o
  · rw [e, del_self] at h; cases h
  · rw [del_ne e] at h
    exact hM o' r h

theorem mem_del {r : ρ} : Mem key (del M o) r ↔ Mem key M r ∧ key r ≠ o := by
  unfold Mem
  by_cases e : key r = o
  · simp [e]
  · rw [del_ne e]
    simp [e]

theorem mem_put {r : ρ} : Mem key (put key M new) r ↔ r = new ∨ Mem key (del M (key new)) r := by
  rw [mem_del]
  unfold Mem
  by_cases e : key r = key new
  · rw [e, put_self]
    simp [eq_comm]
  · rw [put_ne e]
    refine ⟨fun h => Or.inr ⟨h, e⟩, ?_⟩
    intro hm
    rcases hm with rfl | ⟨h, -⟩
    · exact absurd rfl e
    · exact h

theorem rows_put (k : α) (v : β) :
    Rows key (put key M new) φ ψ k v ↔ k = φ new ∧ ψ new v ∨ Rows key (del M (key new)) φ ψ k v := by
  constructor
  · intro hm
    obtain ⟨r, hr, hk, hv⟩ := hm
    rcases mem_put.mp hr with rfl | hr
    · exact Or.inl ⟨hk, hv⟩
    · exact Or.inr ⟨r, hr, hk, hv⟩
  · intro hm
    rcases hm with ⟨hk, hv⟩ | ⟨r, hr, hk, hv⟩
    · exact ⟨new, mem_put.mpr (Or.inl rfl), hk, hv⟩
    · exact ⟨r, mem_put.mpr (Or.inr hr), hk, hv⟩

/-- No other record is at the place of `old`: what is left is what is elsewhere. -/
theorem rows_del_of_mem (hold : Mem key M old)
    (hφ : ∀ r, Mem key M r → φ r = φ old → key r = key old) (k : α) (v : β) :
    Rows key (del M (key old)) φ ψ k v ↔ Rows key M φ ψ k v ∧ k ≠ φ old := by
  constructor
  · intro hm
    obtain ⟨r, hr, rfl, hv⟩ := hm
    obtain ⟨hr, hne⟩ := mem_del.mp hr
    exact ⟨⟨r, hr, rfl, hv⟩, fun e => hne (hφ r hr e)⟩
  · intro hm
    obtain ⟨⟨r, hr, rfl, hv⟩, hne⟩ := hm
    refine ⟨r, mem_del.mpr ⟨hr, fun e => hne ?_⟩, rfl, hv⟩
    have : some r = some old := by rw [← hr, e, hold]
    rw [Option.some.inj this]

theorem rows_del_of_none (h : M o = none) (k : α) (v : β) : Rows key (del M o) φ ψ k v ↔ Rows key M φ ψ k v := by
  rw [del_eq_self h]

theorem clash_iff : Clash key M φ new ↔ ∃ r, Mem key (del M (key new)) r ∧ φ r = φ new := by
  simp only [Clash, mem_del, and_assoc]

end Rows

end Collette.Table
