/-
  Collette.Table.Paging — reading sorted rows in pages, while they change.

  A reader asks for the first few rows past the last one it was given, again and again.
  The rows may be others each time, but come sorted by the same order on their keys. A
  page with fewer rows than asked for leaves none behind.

  - `Inv.page`: what was returned is sorted, and a key that was among the rows at every
    page has been returned or lies ahead; after a short page nothing does.
  - `Same.page`: while the rows stay as they are, what was returned is their beginning,
    and all of them after a short page.
-/

import Mathlib

namespace Collette.Paging

variable {α κ : Type*} (r : κ → κ → Prop) [DecidableRel r] (key : α → κ)

def past (last : Option κ) (rows : List α) : List α :=
  match last with
  | none => rows
  | some k => rows.filter fun x => r k (key x)

structure Reader (α : Type*) where
  out : List α
  /-- The rows at each page. -/
  seen : List (List α)
  /-- A page was short. -/
  done : Bool

def start : Reader α := ⟨[], [], false⟩

def Reader.last (s : Reader α) : Option κ := s.out.getLast?.map key

def Reader.page (s : Reader α) (rows : List α) (n : Nat) : Reader α :=
  let page := (past r key (s.last key) rows).take n
  ⟨s.out ++ page, s.seen ++ [rows], s.done || page.length < n⟩

def Sorted (rows : List α) : Prop := rows.Pairwise fun x y => r (key x) (key y)

variable {r key} {s : Reader α} {rows : List α}

theorem Sorted.past (h : Sorted r key rows) (last : Option κ) : Sorted r key (past r key last rows) := by
  cases last with
  | none => exact h
  | some k => exact List.Pairwise.filter _ h

/-! ## Changing rows -/

/-- What was returned is sorted, and nothing that stayed was left out. -/
structure Inv (r : κ → κ → Prop) (key : α → κ) (s : Reader α) : Prop where
  sorted : Sorted r key s.out
  covers : ∀ k, (∀ rows ∈ s.seen, k ∈ rows.map key) →
    k ∈ s.out.map key ∨ s.done = false ∧ ∀ x ∈ s.out, r (key x) k

omit [DecidableRel r] in
theorem inv_start : Inv r key (start : Reader α) := ⟨List.Pairwise.nil, fun _ _ => Or.inr ⟨rfl, by simp [start]⟩⟩

/-- Whatever is past the last row returned is past every row returned. -/
theorem lt_of_mem_past [IsTrans κ r] (h : Sorted r key s.out) {x y : α} (hx : x ∈ s.out)
    (hy : y ∈ past r key (s.last key) rows) : r (key x) (key y) := by
  unfold Reader.last at hy
  cases hlast : s.out.getLast? with
  | none =>
    rw [List.getLast?_eq_none_iff.mp hlast] at hx
    cases hx
  | some l =>
    obtain ⟨init, hinit⟩ := List.getLast?_eq_some_iff.mp hlast
    rw [hlast] at hy
    have hl : r (key l) (key y) := by simpa using (List.mem_filter.mp hy).2
    rw [hinit] at hx
    unfold Sorted at h
    rw [hinit, List.pairwise_append] at h
    rcases List.mem_append.mp hx with hx | hx
    · exact IsTrans.trans _ _ _ (h.2.2 x hx l (by simp)) hl
    · rw [List.mem_singleton.mp hx]
      exact hl

theorem mem_past_of_lt {x : α} (hx : x ∈ rows) (h : ∀ y ∈ s.out, r (key y) (key x)) :
    x ∈ past r key (s.last key) rows := by
  unfold Reader.last
  cases hlast : s.out.getLast? with
  | none => exact hx
  | some l => exact List.mem_filter.mpr ⟨hx, by simpa using h l (List.mem_of_getLast? hlast)⟩

theorem Inv.page [IsTrans κ r] (h : Inv r key s) (hrows : Sorted r key rows) (n : Nat) :
    Inv r key (s.page r key rows n) := by
  have hpast := hrows.past (s.last key)
  constructor
  · refine List.pairwise_append.mpr ⟨h.sorted, hpast.sublist (List.take_sublist _ _), fun x hx y hy => ?_⟩
    exact lt_of_mem_past h.sorted hx (List.mem_of_mem_take hy)
  · intro k hk
    have hseen : ∀ rows ∈ s.seen, k ∈ rows.map key := fun rows hmem => hk rows (List.mem_append_left _ hmem)
    obtain ⟨x, hx, rfl⟩ := List.mem_map.mp (hk rows (List.mem_append_right _ (by simp)))
    rcases h.covers _ hseen with hout | ⟨hdone, hahead⟩
    · refine Or.inl ?_
      show key x ∈ (s.out ++ _).map key
      rw [List.map_append]
      exact List.mem_append_left _ hout
    · have hmem := mem_past_of_lt hx hahead
      rw [← List.take_append_drop n (Paging.past r key (s.last key) rows)] at hmem hpast
      rcases List.mem_append.mp hmem with hmem | hmem
      · exact Or.inl (List.mem_map_of_mem (List.mem_append_right _ hmem))
      · -- left over, so the page was full and ends before `x`
        refine Or.inr ⟨?_, fun y hy => ?_⟩
        · have hlen := List.length_pos_of_mem hmem
          rw [List.length_drop] at hlen
          simp only [Reader.page, hdone, List.length_take, Bool.false_or, decide_eq_false_iff_not]
          omega
        · rcases List.mem_append.mp hy with hy | hy
          · exact hahead y hy
          · exact (List.pairwise_append.mp hpast).2.2 y hy x hmem

/-! ## Rows that stay -/

/-- What was returned is the beginning of the rows, and all of them after a short page. -/
structure Same (rows : List α) (s : Reader α) : Prop where
  isPrefix : s.out <+: rows
  all : s.done = true → s.out = rows

theorem same_start (rows : List α) : Same rows (start : Reader α) := ⟨List.nil_prefix, fun h => by cases h⟩

theorem past_last_append [IsStrictOrder κ r] {rest : List α} (hrows : Sorted r key (s.out ++ rest)) :
    past r key (s.last key) (s.out ++ rest) = rest := by
  unfold Reader.last
  cases hlast : s.out.getLast? with
  | none => rw [List.getLast?_eq_none_iff.mp hlast]; rfl
  | some l =>
    obtain ⟨init, hinit⟩ := List.getLast?_eq_some_iff.mp hlast
    have hl : l ∈ s.out := List.mem_of_getLast? hlast
    obtain ⟨hout, -, hrest⟩ := List.pairwise_append.mp hrows
    have hpast : rest.filter (fun y => r (key l) (key y)) = rest :=
      List.filter_eq_self.mpr fun y hy => decide_eq_true (hrest l hl y hy)
    have hbefore : s.out.filter (fun x => r (key l) (key x)) = [] := by
      refine List.filter_eq_nil_iff.mpr fun x hx => ?_
      rw [decide_eq_true_eq]
      rw [hinit, List.pairwise_append] at hout
      rw [hinit] at hx
      rcases List.mem_append.mp hx with hx | hx
      · exact asymm (hout.2.2 x hx l (by simp))
      · rw [List.mem_singleton.mp hx]
        exact irrefl _
    show (s.out ++ rest).filter (fun x => r (key l) (key x)) = rest
    rw [List.filter_append, hbefore, hpast, List.nil_append]

theorem Same.page [IsStrictOrder κ r] (h : Same rows s) (hrows : Sorted r key rows) (n : Nat) :
    Same rows (s.page r key rows n) := by
  obtain ⟨rest, hrest⟩ := h.isPrefix
  have hpast : past r key (s.last key) rows = rest := by
    rw [← hrest] at hrows ⊢
    exact past_last_append hrows
  have hout : (s.page r key rows n).out = s.out ++ rest.take n := by
    simp only [Reader.page, hpast]
  refine ⟨?_, fun hdone => ?_⟩
  · rw [hout, ← hrest]
    exact (List.prefix_append_right_inj _).mpr (List.take_prefix _ _)
  · rw [hout]
    simp only [Reader.page, hpast, Bool.or_eq_true, decide_eq_true_eq, List.length_take] at hdone
    rcases hdone with hdone | hshort
    · have hnil : rest = [] := by
        have := h.all hdone
        rw [← hrest] at this
        exact List.append_right_eq_self.mp this.symm
      rw [← hrest, hnil, List.take_nil]
    · rw [List.take_of_length_le (by omega), hrest]

end Collette.Paging
