import Mathlib.Algebra.Order.Group.Multiset
import Mathlib.Tactic.Abel
import WaitDefer.Proofs.Tree.Alike

/-!
# Bags

What code holds, counted without regard to order:

* `bagOf`: what all items of a list hold;
* `bagOf_congr`: lists whose items hold the same hold the same.
-/

namespace WaitDefer

variable {α β γ : Type}

/-- What the items of a list hold together. -/
def bagOf (f : α → Multiset β) (as : List α) : Multiset β := (as.map f).sum

section
variable {f : α → Multiset β}

@[simp]
theorem bagOf_nil : bagOf f [] = 0 := rfl

@[simp]
theorem bagOf_cons (a : α) (as : List α) : bagOf f (a :: as) = f a + bagOf f as := by
  simp [bagOf]

@[simp]
theorem bagOf_append (as bs : List α) : bagOf f (as ++ bs) = bagOf f as + bagOf f bs := by
  simp [bagOf]

@[simp]
theorem bagOf_reverse (as : List α) : bagOf f as.reverse = bagOf f as := by
  induction as with
  | nil => rfl
  | cons a as ih => simp [ih, add_comm]

@[simp]
theorem bagOf_map (g : γ → α) (cs : List γ) : bagOf f (cs.map g) = bagOf (fun c => f (g c)) cs := by
  simp [bagOf, Function.comp_def]

theorem bagOf_perm {as bs : List α} (h : as.Perm bs) : bagOf f as = bagOf f bs :=
  (h.map f).foldr_eq _

theorem mem_bagOf {as : List α} {b : β} : b ∈ bagOf f as ↔ ∃ a ∈ as, b ∈ f a := by
  induction as with
  | nil => simp
  | cons a as ih => simp [ih]

theorem bagOf_flatMap (g : γ → List α) (cs : List γ) :
    bagOf f (cs.flatMap g) = bagOf (fun c => bagOf f (g c)) cs := by
  induction cs with
  | nil => rfl
  | cons c cs ih => simp [ih]

theorem bagOf_eq_zero {as : List α} (h : ∀ a ∈ as, f a = 0) : bagOf f as = 0 := by
  induction as with
  | nil => rfl
  | cons a as ih =>
    rw [bagOf_cons, h a List.mem_cons_self, ih fun b hb => h b (List.mem_cons_of_mem _ hb),
      add_zero]

theorem bagOf_eq_zero_iff {as : List α} : bagOf f as = 0 ↔ ∀ a ∈ as, f a = 0 := by
  refine ⟨fun h a ha => Multiset.eq_zero_of_forall_notMem fun b hb => ?_, bagOf_eq_zero⟩
  have inside := mem_bagOf.mpr ⟨a, ha, hb⟩
  rw [h] at inside
  cases inside

theorem bagOf_congr {g : γ → Multiset β} {R : α → γ → Prop} {as : List α} {cs : List γ}
    (h : List.Forall₂ R as cs) (same : ∀ a c, R a c → g c = f a) : bagOf g cs = bagOf f as := by
  induction h with
  | nil => rfl
  | cons first _ ih => rw [bagOf_cons, bagOf_cons, same _ _ first, ih]

theorem bagOf_congr_mem {g : α → Multiset β} {as : List α} (same : ∀ a ∈ as, f a = g a) :
    bagOf f as = bagOf g as :=
  congrArg List.sum (List.map_congr_left same)

end

@[simp]
theorem bagOf_none (as : List α) : bagOf (fun _ => (0 : Multiset β)) as = 0 :=
  bagOf_eq_zero fun _ _ => rfl

theorem map_bagOf {f : α → Multiset β} {g : β → γ} (as : List α) :
    (bagOf f as).map g = bagOf (fun a => (f a).map g) as := by
  induction as with
  | nil => rfl
  | cons a as ih => simp [ih]

theorem filterMap_bagOf (h : β → Option γ) (g : α → Multiset β) (as : List α) :
    (bagOf g as).filterMap h = bagOf (fun a => (g a).filterMap h) as := by
  induction as with
  | nil => rfl
  | cons a as ih => rw [bagOf_cons, bagOf_cons, Multiset.filterMap_add, ih]

theorem bagOf_filter (keep : α → Bool) (g : α → List β) (as : List α) :
    bagOf (fun a => if keep a then (↑(g a) : Multiset β) else 0) as =
      ↑((as.filter keep).flatMap g) := by
  induction as with
  | nil => rfl
  | cons a as ih =>
    rw [bagOf_cons, ih, List.filter_cons]
    cases keep a with
    | true => simp
    | false => simp

theorem bagOf_single (f : α → β) (as : List α) :
    bagOf (fun a => {f a}) as = ↑(as.map f) := by
  induction as with
  | nil => rfl
  | cons a as ih => rw [bagOf_cons, ih, List.map_cons, ← Multiset.cons_coe, Multiset.singleton_add]

end WaitDefer
