import Mathlib.Algebra.Order.BigOperators.Group.Finset
import Mathlib.Algebra.Order.BigOperators.Group.List
import Mathlib.Algebra.Order.Ring.Nat
import Mathlib.Data.Fintype.Card
import Mathlib.Data.List.Nodup
import Mathlib.Data.Set.Finite.List
import Mathlib.Logic.Relation
import Mathlib.Order.WellFounded

/-!
# Finite directed graphs

Reachability by a worklist, and orders in which every node stands after the nodes it leads to. A relation `r a b` is read as "`a`
leads to `b`".
-/

namespace Ferroly.Graph

open Relation List

variable {α : Type} {r : α → α → Prop}

/-- No node leads back to itself. -/
def Acyclic (r : α → α → Prop) : Prop := ∀ a, ¬TransGen r a a

/-! ## Weights -/

section Weight

open Classical in
/-- The weight of all nodes that lead to a node. -/
noncomputable def weightBefore (r : α → α → Prop) (nodes : Finset α) (w : α → Nat) (a : α) : Nat :=
  ∑ n ∈ nodes.filter (fun n => TransGen r n a), w n

variable {nodes : Finset α} {w : α → Nat} {a b : α}

/-- Without cycles the weight of a node is not among those that lead to it. -/
theorem weightBefore_add_le (h : Acyclic r) {s : Finset α} (ha : a ∈ s) (hs : ∀ n ∈ nodes, TransGen r n a → n ∈ s) :
    weightBefore r nodes w a + w a ≤ ∑ n ∈ s, w n := by
  classical
  have hnot : a ∉ nodes.filter (fun n => TransGen r n a) := fun hmem => h a (Finset.mem_filter.mp hmem).2
  unfold weightBefore
  rw [add_comm, ← Finset.sum_insert hnot]
  refine Finset.sum_le_sum_of_subset ?_
  intro n hn
  rcases Finset.mem_insert.mp hn with rfl | hn
  · exact ha
  · exact hs n (Finset.mem_filter.mp hn).1 (Finset.mem_filter.mp hn).2

theorem weightBefore_add_le_sum (h : Acyclic r) (ha : a ∈ nodes) : weightBefore r nodes w a + w a ≤ ∑ n ∈ nodes, w n :=
  weightBefore_add_le h ha (fun _ hn _ => hn)

theorem weightBefore_add_le_next (h : Acyclic r) (ha : a ∈ nodes) (hab : r a b) :
    weightBefore r nodes w a + w a ≤ weightBefore r nodes w b := by
  classical
  refine weightBefore_add_le h (Finset.mem_filter.mpr ⟨ha, .single hab⟩) ?_
  intro n hn hna
  exact Finset.mem_filter.mpr ⟨hn, hna.tail hab⟩

end Weight

/-! ## Cycles -/

variable {l : List α}

/-- In a finite set of nodes that each lead to another one of the set there is a cycle. -/
theorem exists_cycle (hne : l ≠ []) (hnext : ∀ a ∈ l, ∃ b ∈ l, r a b) : ∃ a, TransGen r a a := by
  by_contra hacyclic
  -- otherwise leading to is well-founded on the set, and its least node leads to none of the set
  have hfinite : Finite {a // a ∈ l} := Set.Finite.to_subtype l.finite_toSet
  let lt : {a // a ∈ l} → {a // a ∈ l} → Prop := fun b a => TransGen r a.1 b.1
  have hirrefl : Std.Irrefl lt := ⟨fun a ha => hacyclic ⟨a.1, ha⟩⟩
  have hwf : WellFounded lt := Finite.wellFounded_of_trans_of_irrefl lt
  obtain ⟨a, ha⟩ := exists_mem_of_ne_nil l hne
  obtain ⟨m, -, hm⟩ := WellFounded.has_min hwf Set.univ ⟨⟨a, ha⟩, trivial⟩
  obtain ⟨b, hb, hmb⟩ := hnext m.1 m.2
  exact hm ⟨b, hb⟩ trivial (.single hmb)

/-- A path goes on from where an edge was added, or it was there before. -/
theorem transGen_or {a b x y : α} (h : TransGen (fun u v => r u v ∨ u = a ∧ v = b) x y) :
    TransGen r x y ∨ ReflTransGen r x a ∧ ReflTransGen r b y := by
  induction h with
  | single h =>
    rcases h with h | ⟨rfl, rfl⟩
    · exact .inl (.single h)
    · exact .inr ⟨.refl, .refl⟩
  | tail _ h ih =>
    rcases h with h | ⟨rfl, rfl⟩
    · exact ih.imp (fun hp => hp.tail h) (fun hp => ⟨hp.1, hp.2.tail h⟩)
    · rcases ih with hp | hp
      · exact .inr ⟨hp.to_reflTransGen, .refl⟩
      · exact .inr ⟨hp.1, .refl⟩

/-- An edge makes an acyclic relation cyclic just in case its end leads to its start. -/
theorem acyclic_add_iff {a b : α} (h : Acyclic r) : Acyclic (fun u v => r u v ∨ u = a ∧ v = b) ↔ ¬ReflTransGen r b a := by
  constructor
  · intro hadd hba
    have hback : ReflTransGen (fun u v => r u v ∨ u = a ∧ v = b) b a := ReflTransGen.mono (fun _ _ => .inl) _ _ hba
    exact hadd a (TransGen.head' (.inr ⟨rfl, rfl⟩) hback)
  · intro hba x hx
    rcases transGen_or hx with hp | ⟨hxa, hbx⟩
    · exact h x hp
    · exact hba (hbx.trans hxa)

/-! ## Orders -/

/-- Every node of the list stands there once, after all the nodes it leads to. -/
def Topological (r : α → α → Prop) (l : List α) : Prop :=
  ∀ before a after, l = before ++ a :: after → a ∉ before ∧ ∀ b, r a b → b ∈ before

theorem topological_nil : Topological r [] := fun _ _ _ h => absurd h (by simp)

theorem Topological.snoc {a : α} (h : Topological r l) (ha : a ∉ l) (hnext : ∀ b, r a b → b ∈ l) : Topological r (l ++ [a]) := by
  intro before x after hl
  rcases eq_nil_or_concat after with rfl | ⟨after, y, rfl⟩
  · obtain ⟨rfl, hx⟩ := append_inj' hl rfl
    cases hx
    exact ⟨ha, hnext⟩
  · rw [concat_eq_append, ← cons_append, ← append_assoc] at hl
    exact h before x after (append_inj' hl rfl).1

theorem Topological.nodup (h : Topological r l) : l.Nodup := by
  induction l using List.reverseRecOn with
  | nil => exact nodup_nil
  | append_singleton l a ih =>
    have hl : Topological r l := by
      intro before x after hx
      exact h before x (after ++ [a]) (by rw [hx]; simp)
    exact nodup_append'.mpr ⟨ih hl, nodup_singleton a, by simpa using (h l a [] rfl).1⟩

/-- Everything a node leads to, in any number of steps, stands before it. -/
theorem Topological.mem_of_transGen (before after : List α) {a b : α} (h : Topological r l) (hl : l = before ++ a :: after)
    (hab : TransGen r a b) : b ∈ before := by
  induction hab using TransGen.head_induction_on generalizing before after with
  | single hab => exact (h before _ after hl).2 b hab
  | head hac _ ih =>
    obtain ⟨b1, b2, rfl⟩ := append_of_mem ((h before _ after hl).2 _ hac)
    have hmem := ih b1 (b2 ++ _ :: after) (by rw [hl, append_assoc, cons_append])
    exact mem_append_left _ hmem

/-- A relation whose nodes can be put in order is acyclic. -/
theorem Topological.acyclic (h : Topological r l) (hmem : ∀ a b, r a b → a ∈ l) : Acyclic r := by
  intro a haa
  obtain ⟨b, hab, -⟩ := TransGen.head'_iff.mp haa
  obtain ⟨before, after, hl⟩ := append_of_mem (hmem a b hab)
  exact (h before a after hl).1 (h.mem_of_transGen before after hl haa)

/-- The list holds the given nodes, each once, and each after those of them that it leads to, in any number of steps. -/
structure Listing (r : α → α → Prop) (p : α → Prop) (l : List α) : Prop where
  nodup : l.Nodup
  mem : ∀ a, a ∈ l ↔ p a
  first : ∀ before a after, l = before ++ a :: after → ∀ b ∈ l, TransGen r a b → b ∈ before

/-- Any part of an order lists its nodes. -/
theorem Topological.listing (h : Topological r l) (p : α → Bool) : Listing r (fun a => a ∈ l ∧ p a = true) (l.filter p) where
  nodup := h.nodup.filter _
  mem a := mem_filter
  first before a after hl b hb hab := by
    obtain ⟨l1, l2, rfl, rfl, hl2⟩ := filter_eq_append_iff.mp hl
    obtain ⟨m1, m2, rfl, hm1, -, -⟩ := filter_eq_cons_iff.mp hl2
    have hpb := (mem_filter.mp hb).2
    rcases mem_append.mp (h.mem_of_transGen (l1 ++ m1) m2 (by rw [append_assoc]) hab) with hb | hb
    · exact mem_filter.mpr ⟨hb, hpb⟩
    · exact absurd hpb (hm1 b hb)

theorem Listing.congr {p q : α → Prop} (h : Listing r p l) (hpq : ∀ a, p a ↔ q a) : Listing r q l :=
  ⟨h.nodup, fun a => (h.mem a).trans (hpq a), h.first⟩

/-- Backwards, each node stands after those that lead to it. -/
theorem Listing.reverse {p : α → Prop} (h : Listing r p l) : Listing (fun a b => r b a) p l.reverse where
  nodup := nodup_reverse.mpr h.nodup
  mem a := mem_reverse.trans (h.mem a)
  first before a after hl b hb hab := by
    have hl' : l = after.reverse ++ a :: before.reverse := by rw [← reverse_reverse l, hl]; simp
    have hnodup := h.nodup
    rw [hl'] at hnodup
    have hba : TransGen r b a := transGen_swap.mp hab
    rcases mem_append.mp (hl' ▸ mem_reverse.mp hb) with hb | hb
    · -- If it stood behind, the node it leads to would stand twice.
      obtain ⟨l1, l2, hsplit⟩ := append_of_mem hb
      have ha := h.first l1 b (l2 ++ a :: before.reverse) (by rw [hl', hsplit, append_assoc]; rfl) a (by rw [hl']; simp) hba
      refine absurd ha (fun ha => (nodup_append.mp hnodup).2.2 a ?_ a mem_cons_self rfl)
      rw [hsplit]
      exact mem_append_left _ ha
    · rcases mem_cons.mp hb with rfl | hb
      · have hself := h.first after.reverse b before.reverse hl' b (by rw [hl']; simp) hba
        exact absurd rfl ((nodup_append.mp hnodup).2.2 b hself b mem_cons_self)
      · exact mem_reverse.mp hb

/-! ## Reachability -/

section Worklist

variable [DecidableEq α]

/-- The nodes reached from those on the stack, added to those already seen: the loop of a depth-first search, with as many turns as
the fuel allows. -/
def reach (next : α → List α) : Nat → List α → List α → List α
  | 0, _, seen => seen
  | _ + 1, [], seen => seen
  | fuel + 1, n :: stack, seen =>
    if n ∈ seen then reach next fuel stack seen else reach next fuel ((next n).reverse ++ stack) (n :: seen)

/-- How many turns a search needs: every node puts its successors on the stack once. -/
def turns (next : α → List α) (nodes : List α) (stack seen : List α) : Nat :=
  stack.length + (nodes.map (fun n => if n ∈ seen then 0 else (next n).length)).sum

variable {next : α → List α}

theorem turns_skip {nodes stack seen : List α} {n : α} : turns next nodes (n :: stack) seen = turns next nodes stack seen + 1 := by
  simp only [turns, length_cons]
  omega

theorem turns_visit {nodes seen : List α} (stack : List α) {n : α} (hnodes : ∀ n, n ∉ nodes → next n = []) (hn : n ∉ seen) :
    turns next nodes ((next n).reverse ++ stack) (n :: seen) + 1 ≤ turns next nodes (n :: stack) seen := by
  let owed (seen : List α) (m : α) : Nat := if m ∈ seen then 0 else (next m).length
  have hle : ∀ m, owed (n :: seen) m ≤ owed seen m := by
    intro m
    by_cases hm : m ∈ seen <;> by_cases hmn : m = n <;> simp [owed, hmn]
  have hsum : n ∈ nodes → (next n).length + (nodes.map (owed (n :: seen))).sum ≤ (nodes.map (owed seen)).sum := by
    intro hmem
    obtain ⟨l1, l2, rfl⟩ := append_of_mem hmem
    have h1 := sum_le_sum (l := l1) (fun m _ => hle m)
    have h2 := sum_le_sum (l := l2) (fun m _ => hle m)
    have hself : owed (n :: seen) n = 0 := if_pos mem_cons_self
    have hother : owed seen n = (next n).length := if_neg hn
    simp only [map_append, map_cons, sum_append, sum_cons]
    omega
  have hmono := sum_le_sum (l := nodes) (fun m _ => hle m)
  simp only [turns, length_append, length_reverse, length_cons]
  by_cases hmem : n ∈ nodes
  · have := hsum hmem
    simp only [owed] at this
    omega
  · simp only [owed] at hmono
    rw [hnodes n hmem, length_nil]
    omega

variable {stack seen : List α}

omit [DecidableEq α] in
/-- What is reached from a node whose successors are all seen or on the stack. -/
theorem reached_of_seen (hclosed : ∀ n ∈ seen, ∀ m ∈ next n, m ∈ seen ∨ m ∈ stack) {n b : α} (hn : n ∈ seen)
    (h : ReflTransGen (fun a b => b ∈ next a) n b) :
    b ∈ seen ∨ ∃ a ∈ stack, ReflTransGen (fun a b => b ∈ next a) a b := by
  induction h with
  | refl => exact .inl hn
  | tail _ hbc ih =>
    rcases ih with hb | ⟨a, ha, hab⟩
    · exact (hclosed _ hb _ hbc).imp_right (fun hc => ⟨_, hc, .refl⟩)
    · exact .inr ⟨a, ha, hab.tail hbc⟩

/-- A search with enough turns finds exactly what can be reached. -/
theorem mem_reach {nodes : List α} (hnodes : ∀ n, n ∉ nodes → next n = []) {fuel : Nat} (hfuel : turns next nodes stack seen ≤ fuel)
    (hclosed : ∀ n ∈ seen, ∀ m ∈ next n, m ∈ seen ∨ m ∈ stack) {b : α} :
    b ∈ reach next fuel stack seen ↔ b ∈ seen ∨ ∃ a ∈ stack, ReflTransGen (fun a b => b ∈ next a) a b := by
  induction fuel generalizing stack seen with
  | zero =>
    rcases stack with _ | ⟨n, stack⟩
    · simp [reach]
    · rw [turns_skip] at hfuel
      omega
  | succ fuel ih =>
    rcases stack with _ | ⟨n, stack⟩
    · simp [reach]
    · by_cases hn : n ∈ seen
      · have hclosed' : ∀ k ∈ seen, ∀ m ∈ next k, m ∈ seen ∨ m ∈ stack := by
          intro k hk m hm
          rcases hclosed k hk m hm with hm | hm
          · exact .inl hm
          · rcases mem_cons.mp hm with rfl | hm
            · exact .inl hn
            · exact .inr hm
        rw [turns_skip] at hfuel
        rw [reach, if_pos hn, ih (by omega) hclosed']
        refine ⟨Or.imp_right (fun ⟨a, ha, hab⟩ => ⟨a, mem_cons_of_mem _ ha, hab⟩), ?_⟩
        rintro (hb | ⟨a, ha, hab⟩)
        · exact .inl hb
        · rcases mem_cons.mp ha with rfl | ha
          · exact reached_of_seen hclosed' hn hab
          · exact .inr ⟨a, ha, hab⟩
      · have hclosed' : ∀ k ∈ n :: seen, ∀ m ∈ next k, m ∈ n :: seen ∨ m ∈ (next n).reverse ++ stack := by
          intro k hk m hm
          rcases mem_cons.mp hk with rfl | hk
          · exact .inr (mem_append_left _ (mem_reverse.mpr hm))
          · rcases hclosed k hk m hm with hm | hm
            · exact .inl (mem_cons_of_mem _ hm)
            · rcases mem_cons.mp hm with rfl | hm
              · exact .inl mem_cons_self
              · exact .inr (mem_append_right _ hm)
        have hturns := turns_visit stack hnodes hn
        rw [reach, if_neg hn, ih (by omega) hclosed']
        constructor
        · rintro (hb | ⟨a, ha, hab⟩)
          · rcases mem_cons.mp hb with rfl | hb
            · exact .inr ⟨b, mem_cons_self, .refl⟩
            · exact .inl hb
          · rcases mem_append.mp ha with ha | ha
            · exact .inr ⟨n, mem_cons_self, .head (mem_reverse.mp ha) hab⟩
            · exact .inr ⟨a, mem_cons_of_mem _ ha, hab⟩
        · rintro (hb | ⟨a, ha, hab⟩)
          · exact .inl (mem_cons_of_mem _ hb)
          · rcases mem_cons.mp ha with rfl | ha
            · rcases ReflTransGen.cases_head hab with rfl | ⟨c, hac, hcb⟩
              · exact .inl mem_cons_self
              · exact .inr ⟨c, mem_append_left _ (mem_reverse.mpr hac), hcb⟩
            · exact .inr ⟨a, mem_append_right _ ha, hab⟩

end Worklist

end Ferroly.Graph
