import Mathlib.Data.List.Nodup
import Mathlib.Logic.Equiv.Fin.Basic
import Mathlib.Logic.Relation

/-!
# Swapping neighbours

A list is rearranged by swaps if neighbours that are apart change places, one pair after
another. Entries that are not apart keep their order. Lists without repetition that agree on
each of a family of lines are rearrangements of one another by swaps of entries that have no
line in common.
-/

namespace QuantumCircuit

open Relation

variable {α β ι : Type} {apart : α → α → Prop}

inductive Swap (apart : α → α → Prop) : List α → List α → Prop
  | mk (l : List α) {a b : α} (r : List α) (h : apart a b) :
      Swap apart (l ++ a :: b :: r) (l ++ b :: a :: r)

def Swaps (apart : α → α → Prop) : List α → List α → Prop := ReflTransGen (Swap apart)

namespace Swaps

theorem refl (l : List α) : Swaps apart l l := ReflTransGen.refl

theorem trans {l l' l'' : List α} (h : Swaps apart l l') (h' : Swaps apart l' l'') :
    Swaps apart l l'' :=
  ReflTransGen.trans h h'

theorem cons (a : α) {l l' : List α} (h : Swaps apart l l') : Swaps apart (a :: l) (a :: l') := by
  refine ReflTransGen.lift (a :: ·) ?_ _ _ h
  rintro _ _ ⟨p, r, hab⟩
  exact .mk (a :: p) r hab

theorem move {a : α} (r : List α) : ∀ {p : List α}, (∀ b ∈ p, apart a b) →
    Swaps apart (a :: (p ++ r)) (p ++ a :: r)
  | [], _ => .refl _
  | b :: p, h => by
    have hstep : Swaps apart (a :: b :: (p ++ r)) (b :: a :: (p ++ r)) :=
      ReflTransGen.single (.mk [] _ (h b (by simp)))
    exact hstep.trans ((move r fun c hc => h c (by simp [hc])).cons b)

theorem perm {l l' : List α} (h : Swaps apart l l') : l.Perm l' := by
  induction h with
  | refl => exact .refl _
  | tail _ hswap ih =>
    obtain ⟨p, r, -⟩ := hswap
    exact ih.trans (.append_left p (.swap _ _ r))

theorem filterMap {apart' : β → β → Prop} {f : α → Option β}
    (hf : ∀ a b x y, apart a b → f a = some x → f b = some y → apart' x y) {l l' : List α}
    (h : Swaps apart l l') : Swaps apart' (l.filterMap f) (l'.filterMap f) := by
  induction h with
  | refl => exact .refl _
  | tail _ hswap ih =>
    obtain @⟨p, a, b, r, hab⟩ := hswap
    refine ih.trans ?_
    simp only [List.filterMap_append, List.filterMap_cons]
    cases ha : f a with
    | none => exact .refl _
    | some x =>
      cases hb : f b with
      | none => exact .refl _
      | some y => exact ReflTransGen.single (.mk _ _ (hf a b x y hab ha hb))

theorem foldl_eq {σ : Type*} {step : σ → α → σ}
    (hstep : ∀ a b, apart a b → ∀ s, step (step s a) b = step (step s b) a)
    {l l' : List α} (h : Swaps apart l l') (s : σ) : l.foldl step s = l'.foldl step s := by
  induction h with
  | refl => rfl
  | tail _ hswap ih =>
    obtain ⟨p, r, hab⟩ := hswap
    rw [ih, List.foldl_append, List.foldl_append, List.foldl_cons, List.foldl_cons, List.foldl_cons,
      List.foldl_cons, hstep _ _ hab]

end Swaps

/-! ## What swaps keep -/

/-- Every entry of `l` has a place of its own in `l'`, and entries that are not apart are
placed in the order they have. -/
def KeepsOrder (apart : α → α → Prop) (l l' : List α) : Prop :=
  ∃ place : Fin l.length ≃ Fin l'.length, (∀ k, l'[place k] = l[k]) ∧
    ∀ j k, j < k → ¬ apart l[j] l[k] → place j < place k

namespace KeepsOrder

theorem refl (l : List α) : KeepsOrder apart l l := ⟨.refl _, fun _ => rfl, fun _ _ h _ => h⟩

theorem trans {l l' l'' : List α} (h : KeepsOrder apart l l') (h' : KeepsOrder apart l' l'') :
    KeepsOrder apart l l'' := by
  obtain ⟨f, hf, hlt⟩ := h
  obtain ⟨g, hg, hlt'⟩ := h'
  refine ⟨f.trans g, fun k => (hg (f k)).trans (hf k), ?_⟩
  intro j k hjk hapart
  refine hlt' _ _ (hlt j k hjk hapart) ?_
  rwa [hf, hf]

end KeepsOrder

theorem Swap.keepsOrder {l l' : List α} (h : Swap apart l l') : KeepsOrder apart l l' := by
  obtain @⟨p, a, b, r, hab⟩ := h
  have hlen : (p ++ a :: b :: r).length = (p ++ b :: a :: r).length := by simp
  let i : Fin (p ++ a :: b :: r).length := ⟨p.length, by simp⟩
  let j : Fin (p ++ a :: b :: r).length := ⟨p.length + 1, by simp⟩
  have hplace : ∀ k, ((Equiv.swap i j).trans (finCongr hlen) k : Nat) =
      if k.val = p.length then p.length + 1 else if k.val = p.length + 1 then p.length else k.val := by
    intro k
    simp only [Equiv.trans_apply, finCongr_apply, Fin.val_cast, Equiv.swap_apply_def, i, j, Fin.ext_iff]
    split
    · rfl
    · split <;> rfl
  refine ⟨(Equiv.swap i j).trans (finCongr hlen), ?_, ?_⟩
  · intro k
    simp only [Fin.getElem_fin, hplace]
    grind
  · intro x y hxy hapart
    rw [Fin.lt_def, hplace, hplace]
    have hne : ¬ (x.val = p.length ∧ y.val = p.length + 1) := by
      rintro ⟨hx, hy⟩
      simp only [Fin.getElem_fin, hx, hy] at hapart
      exact hapart (by simpa using hab)
    rw [Fin.lt_def] at hxy
    split_ifs <;> omega

theorem Swaps.keepsOrder {l l' : List α} (h : Swaps apart l l') : KeepsOrder apart l l' := by
  induction h with
  | refl => exact .refl _
  | tail _ hswap ih => exact ih.trans hswap.keepsOrder

/-! ## Lists that agree on lines -/

section
variable [DecidableEq α] (on : ι → List α)

def Apart (a b : α) : Prop := ∀ i, a ∈ on i → b ∉ on i

theorem filter_eq_nil_of_cons {a : α} {l p r : List α} {i : ι} (ha : a ∈ on i) (hp : a ∉ p)
    (h : (a :: l).filter (· ∈ on i) = (p ++ a :: r).filter (· ∈ on i)) :
    p.filter (· ∈ on i) = [] := by
  rw [List.filter_cons_of_pos (by simpa using ha), List.filter_append] at h
  cases hpf : p.filter (· ∈ on i) with
  | nil => rfl
  | cons b t =>
    rw [hpf] at h
    have hb : b ∈ p.filter (· ∈ on i) := by rw [hpf]; simp
    exact absurd ((List.cons.inj h).1 ▸ (List.mem_filter.mp hb).1) hp

theorem filter_eq_of_cons {a : α} {l p r : List α} {i : ι}
    (hp : a ∈ on i → p.filter (· ∈ on i) = [])
    (h : (a :: l).filter (· ∈ on i) = (p ++ a :: r).filter (· ∈ on i)) :
    l.filter (· ∈ on i) = (p ++ r).filter (· ∈ on i) := by
  rw [List.filter_append] at h ⊢
  by_cases ha : a ∈ on i
  · rw [hp ha, List.filter_cons_of_pos (by simpa using ha),
      List.filter_cons_of_pos (by simpa using ha)] at h
    rw [hp ha]
    exact (List.cons.inj h).2
  · rwa [List.filter_cons_of_neg (by simpa using ha), List.filter_cons_of_neg (by simpa using ha)] at h

/-- Lists that agree on every line are rearrangements of one another. -/
theorem swaps_of_filter_eq : ∀ {l l' : List α}, l.Nodup → l.Perm l' →
    (∀ i, l.filter (· ∈ on i) = l'.filter (· ∈ on i)) → Swaps (Apart on) l l'
  | [], l', _, hperm, _ => by rw [List.nil_perm.mp hperm]; exact .refl _
  | a :: l, l', hd, hperm, hon => by
    obtain ⟨p, r, rfl⟩ := List.append_of_mem (hperm.mem_iff.mp List.mem_cons_self)
    have hap : a ∉ p := fun hmem =>
      (List.nodup_cons.mp (List.nodup_middle.mp (hperm.nodup hd))).1 (List.mem_append_left _ hmem)
    have hnil : ∀ i, a ∈ on i → p.filter (· ∈ on i) = [] := fun i ha =>
      filter_eq_nil_of_cons on ha hap (hon i)
    -- the head goes to its place past what stands before it there, which shares no line with it
    have hmove : Swaps (Apart on) (a :: (p ++ r)) (p ++ a :: r) := by
      apply Swaps.move
      intro b hb i ha
      simpa using List.filter_eq_nil_iff.mp (hnil i ha) b hb
    have hrest := swaps_of_filter_eq (List.nodup_cons.mp hd).2 (hperm.trans List.perm_middle).cons_inv
      fun i => filter_eq_of_cons on (hnil i) (hon i)
    exact (hrest.cons a).trans hmove

end

end QuantumCircuit
