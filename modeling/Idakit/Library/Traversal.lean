import Mathlib.Data.List.Nodup
import Mathlib.Data.List.Perm.Basic
import Mathlib.Data.Nat.Notation
import Mathlib.Logic.Relation

/-!
Pre-order over a graph whose links go down in rank. The subtree of a node is
listed by recursion; a stack walk that takes a node and puts its children in
its place lists the same. The list repeats a node exactly as often as paths
lead to it, so it has no repetition where no two links lead to one node, and
has every node where every node but one has a link that leads to it.
-/

namespace Idakit.Library

variable {α : Type*} (children : α → List α)

/-- The nodes below a node, itself first, down to a depth. -/
def preorder : ℕ → α → List α
  | 0, _ => []
  | n + 1, a => a :: (children a).flatMap (preorder n)

def Ranked (rank : α → ℕ) : Prop := ∀ a, ∀ c ∈ children a, rank c < rank a

/-- The nodes below a node, itself first: no path is longer than its rank. -/
def subtree (rank : α → ℕ) (a : α) : List α := preorder children (rank a + 1) a

/-- A walk that takes the top of a stack and puts its children in its place
lists these nodes. -/
inductive Drains : List α → List α → Prop
  | nil : Drains [] []
  | cons {a stack l} (h : Drains (children a ++ stack) l) : Drains (a :: stack) (a :: l)

variable {children} {rank : α → ℕ}

theorem preorder_stable (hranked : Ranked children rank) {n : ℕ} {a : α} (hn : rank a < n) :
    preorder children n a = subtree children rank a := by
  have hstep : ∀ m n a, rank a < n → rank a < m → preorder children n a = preorder children m a := by
    intro m
    induction m with
    | zero => intro n a _ hm; omega
    | succ m ih =>
        intro n a hn hm
        cases n with
        | zero => omega
        | succ n =>
            rw [preorder, preorder]
            congr 1
            apply List.flatMap_congr
            intro c hc
            have hlt := hranked a c hc
            exact ih n c (by omega) (by omega)
  exact hstep _ _ _ hn (Nat.lt_succ_self _)

theorem subtree_eq (hranked : Ranked children rank) (a : α) :
    subtree children rank a = a :: (children a).flatMap (subtree children rank) := by
  rw [subtree, preorder]
  congr 1
  apply List.flatMap_congr
  intro c hc
  exact preorder_stable hranked (hranked a c hc)

/-- Induction on a node from its children. -/
theorem Ranked.induct (hranked : Ranked children rank) {motive : α → Prop}
    (step : ∀ a, (∀ c ∈ children a, motive c) → motive a) (a : α) : motive a := by
  induction hr : rank a using Nat.strongRecOn generalizing a with
  | _ r ih =>
      refine step a fun c hc => ih (rank c) ?_ c rfl
      exact hr ▸ hranked a c hc

theorem mem_subtree_iff (hranked : Ranked children rank) {a x : α} :
    x ∈ subtree children rank a ↔ Relation.ReflTransGen (fun a c => c ∈ children a) a x := by
  constructor
  · induction a using hranked.induct with
    | step a ih =>
        rw [subtree_eq hranked, List.mem_cons, List.mem_flatMap]
        rintro (rfl | ⟨c, hc, hx⟩)
        · exact .refl
        · exact .head hc (ih c hc hx)
  · intro h
    induction h using Relation.ReflTransGen.head_induction_on with
    | refl =>
        rw [subtree_eq hranked]
        exact List.mem_cons_self
    | head hc _ ih =>
        rw [subtree_eq hranked, List.mem_cons, List.mem_flatMap]
        exact .inr ⟨_, hc, ih⟩

theorem rank_le_of_mem_subtree (hranked : Ranked children rank) {a x : α}
    (h : x ∈ subtree children rank a) : rank x ≤ rank a := by
  have hpath := (mem_subtree_iff hranked).mp h
  clear h
  induction hpath with
  | refl => exact Nat.le_refl _
  | tail _ hlink ih => exact Nat.le_trans (Nat.le_of_lt (hranked _ _ hlink)) ih

/-! ### Stack walks -/

theorem drains_flatMap (hranked : Ranked children rank) (stack : List α) :
    Drains children stack (stack.flatMap (subtree children rank)) := by
  induction hlen : (stack.flatMap (subtree children rank)).length using
    Nat.strongRecOn generalizing stack with
  | _ n ih =>
      cases stack with
      | nil => exact .nil
      | cons a stack =>
          have heq : (a :: stack).flatMap (subtree children rank) =
              a :: (children a ++ stack).flatMap (subtree children rank) := by
            rw [List.flatMap_cons, subtree_eq hranked, List.flatMap_append, List.cons_append]
          rw [heq]
          refine .cons (ih _ ?_ _ rfl)
          rw [← hlen, heq, List.length_cons]
          exact Nat.lt_succ_self _

theorem Drains.unique {stack l l' : List α} (h : Drains children stack l)
    (h' : Drains children stack l') : l = l' := by
  induction h generalizing l' with
  | nil =>
      cases h'
      rfl
  | cons _ ih =>
      cases h' with
      | cons h' => rw [ih h']

/-- Children taken in the opposite order make a permutation. -/
theorem subtree_reverse_perm (hranked : Ranked children rank) (a : α) :
    (subtree (fun a => (children a).reverse) rank a).Perm (subtree children rank a) := by
  have hreverse : Ranked (fun a => (children a).reverse) rank :=
    fun a c hc => hranked a c (List.mem_reverse.mp hc)
  induction a using hranked.induct with
  | step a ih =>
      rw [subtree_eq hranked, subtree_eq hreverse]
      refine .cons a (((List.reverse_perm _).flatMap_right _).trans ?_)
      exact List.Perm.flatMap_left _ ih

/-- The nodes below a node are the node itself and the children of them all. -/
theorem subtree_perm_children (hranked : Ranked children rank) (a : α) :
    (subtree children rank a).Perm (a :: (subtree children rank a).flatMap children) := by
  induction a using hranked.induct with
  | step a ih =>
      rw [subtree_eq hranked, List.flatMap_cons, List.flatMap_assoc]
      refine .cons a ?_
      have hbelow : ((children a).flatMap (subtree children rank)).Perm
          ((children a).flatMap fun c => [c] ++ (subtree children rank c).flatMap children) :=
        List.Perm.flatMap_left _ ih
      refine hbelow.trans ((List.flatMap_append_perm _ _ _).symm.trans ?_)
      simp

/-! ### Trees -/

/-- Where no node is linked to twice, no node is listed twice. -/
theorem nodup_subtree (hranked : Ranked children rank) (hnodup : ∀ a, (children a).Nodup)
    (hparent : ∀ a b c, c ∈ children a → c ∈ children b → a = b) (a : α) :
    (subtree children rank a).Nodup := by
  -- Two nodes above one node are one above the other.
  have hchain : ∀ {x c c'}, Relation.ReflTransGen (fun a c => c ∈ children a) c x →
      Relation.ReflTransGen (fun a c => c ∈ children a) c' x →
      c ∈ subtree children rank c' ∨ c' ∈ subtree children rank c := by
    intro x c c' h
    induction h with
    | refl => exact fun h' => .inl ((mem_subtree_iff hranked).mpr h')
    | tail hc hlink ih =>
        intro h'
        rcases Relation.ReflTransGen.cases_tail h' with rfl | ⟨b, hb, hlink'⟩
        · exact .inr ((mem_subtree_iff hranked).mpr (.tail hc hlink))
        · exact ih (hparent _ _ _ hlink hlink' ▸ hb)
  -- A child below another child of the same parent is that child.
  have hsibling : ∀ {a c c'}, c ∈ children a → c' ∈ children a →
      c ∈ subtree children rank c' → c = c' := by
    intro a c c' hc hc' hmem
    rcases Relation.ReflTransGen.cases_tail ((mem_subtree_iff hranked).mp hmem) with rfl | ⟨b, hb, hlink⟩
    · rfl
    · obtain rfl := hparent _ _ _ hc hlink
      have hle := rank_le_of_mem_subtree hranked ((mem_subtree_iff hranked).mpr hb)
      have hlt := hranked _ _ hc'
      omega
  induction a using hranked.induct with
  | step a ih =>
      rw [subtree_eq hranked, List.nodup_cons, List.nodup_flatMap]
      refine ⟨?_, ih, ?_⟩
      · intro hmem
        obtain ⟨c, hc, hmem⟩ := List.mem_flatMap.mp hmem
        have hle := rank_le_of_mem_subtree hranked hmem
        have hlt := hranked a c hc
        omega
      · refine (hnodup a).imp_of_mem fun {c c'} hc hc' hne => ?_
        intro x hx hx'
        rcases hchain ((mem_subtree_iff hranked).mp hx) ((mem_subtree_iff hranked).mp hx') with h | h
        · exact hne (hsibling hc hc' h)
        · exact hne (hsibling hc' hc h).symm

/-- Where every node but the root has a parent, every node is listed. -/
theorem mem_subtree_of_attached (hranked : Ranked children rank) {S : α → Prop} {bound : ℕ}
    (hbound : ∀ a, S a → rank a < bound) {root : α}
    (hattached : ∀ a, S a → a ≠ root → ∃ b, S b ∧ a ∈ children b) {a : α} (ha : S a) :
    a ∈ subtree children rank root := by
  induction hr : bound - rank a using Nat.strongRecOn generalizing a with
  | _ r ih =>
      by_cases heq : a = root
      · rw [heq, subtree_eq hranked]
        exact List.mem_cons_self
      · obtain ⟨b, hb, hlink⟩ := hattached a ha heq
        have hlt := hranked b a hlink
        have hb' := hbound b hb
        have hmem := ih (bound - rank b) (by omega) hb rfl
        exact (mem_subtree_iff hranked).mpr
          (.tail ((mem_subtree_iff hranked).mp hmem) hlink)

end Idakit.Library
