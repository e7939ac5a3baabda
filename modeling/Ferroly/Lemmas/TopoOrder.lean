import Ferroly.Lifecycle.Spec

/-!
# Topological ordering

What the degrees count, the invariant of Kahn's algorithm, and what follows for its result; and what the two closures contain.
-/

namespace Ferroly.Lifecycle

open Relation List

variable {deps : Deps} {inDegree : HashMap Id Nat} {id m n : Id} {order queue : List Id}

/-! ## Degrees -/

variable {g : Degrees}

/-- The degrees after the edges of one id. -/
theorem lookup_edges_inDegree (l : List Id) (hid : (g.inDegree.lookup id).isSome) :
    (l.foldl (Degrees.edge id) g).inDegree.lookup m = if m = id then some ((g.inDegree.lookup id).getD 0 + l.length)
      else if m ∈ l then some ((g.inDegree.lookup m).getD 0) else g.inDegree.lookup m := by
  induction l using reverseRecOn generalizing m with
  | nil =>
    obtain ⟨e, he⟩ := Option.isSome_iff_exists.mp hid
    by_cases hm : m = id
    · subst hm
      simp [he]
    · simp [hm]
  | append_singleton l d ih =>
    rw [foldl_append, foldl_cons, foldl_nil, Degrees.edge]
    simp only [HashMap.lookup_entry, ih]
    by_cases hmd : m = d
    · subst hmd
      by_cases hm : m = id
      · simp [hm, Nat.add_assoc]
      · by_cases hml : m ∈ l <;> simp [hm, hml]
    · by_cases hm : m = id
      · simp [hm, Nat.add_assoc, (hm ▸ hmd : ¬id = d)]
      · simp [hm, hmd]

variable {d : Id}

/-- The reverse edges after the edges of one id. -/
theorem lookup_edges_dependents {l : List Id} (hl : l.Nodup) : (l.foldl (Degrees.edge id) g).dependents.lookup d =
      if d ∈ l then some ((g.dependents.lookup d).getD [] ++ [id]) else g.dependents.lookup d := by
  induction l using reverseRecOn generalizing d with
  | nil => simp
  | append_singleton l x ih =>
    obtain ⟨hl', -, hdisjoint⟩ := nodup_append'.mp hl
    have hx : x ∉ l := fun h => hdisjoint h (mem_singleton_self x)
    rw [foldl_append, foldl_cons, foldl_nil, Degrees.edge]
    simp only [HashMap.lookup_entry, ih hl']
    by_cases hd : d = x
    · subst hd
      simp [hx]
    · simp [hd]

variable {ds : HashSet Id}

theorem lookup_node_inDegree : (g.node id ds).inDegree.lookup m =
      if m = id then some ((g.inDegree.lookup id).getD 0 + ds.items.length)
      else if m ∈ ds then some ((g.inDegree.lookup m).getD 0) else g.inDegree.lookup m := by
  rw [Degrees.node, lookup_edges_inDegree]
  · simp only [HashMap.lookup_entry, HashSet.mem_items]
    by_cases hm : m = id <;> simp [hm]
  · simp [HashMap.lookup_entry]

theorem lookup_node_dependents : (g.node id ds).dependents.lookup d =
      if d ∈ ds then some ((g.dependents.lookup d).getD [] ++ [id]) else g.dependents.lookup d := by
  rw [Degrees.node, lookup_edges_dependents ds.nodup]
  simp only [HashSet.mem_items]

/-- The entries of a dependency map. -/
abbrev DepEntry := Sigma (fun _ : Id => HashSet Id)

/-- What an id depends on, by a list of entries. -/
def listed (es : List DepEntry) (m : Id) : List Id := ((es.dlookup m).map HashSet.items).getD []

theorem listed_snoc {es : List DepEntry} (hid : id ∉ es.keys) :
    listed (es ++ [⟨id, ds⟩]) m = if m = id then ds.items else listed es m := by
  rw [listed, dlookup_append]
  by_cases hm : m = id
  · subst hm
    rw [dlookup_eq_none.mpr hid]
    simp
  · simp [hm, listed]

/-- The degrees and reverse edges of a list of entries. -/
theorem lookup_degrees {es : List DepEntry} (hes : es.NodupKeys) (m : Id) :
    let g := es.foldl (fun g e => Degrees.node g e.1 e.2) ⟨∅, ∅⟩
    g.inDegree.lookup m = (if m ∈ es.keys ∨ ∃ e ∈ es, m ∈ e.2 then some (listed es m).length else none) ∧
      g.dependents.lookup m = if ∃ e ∈ es, m ∈ e.2 then some ((es.filter (fun e => m ∈ e.2)).map (fun e => e.1)) else none := by
  induction es using reverseRecOn generalizing m with
  | nil => simp [keys]
  | append_singleton es e ih =>
    obtain ⟨id, ds⟩ := e
    have hkeys : (es ++ [(⟨id, ds⟩ : DepEntry)]).keys = es.keys ++ [id] := by simp [keys]
    rw [List.NodupKeys, hkeys, nodup_append'] at hes
    obtain ⟨hes', -, hdisjoint⟩ := hes
    have hid : id ∉ es.keys := fun h => hdisjoint h (mem_singleton_self id)
    have ih := ih hes'
    have hnone : ∀ x, x ∉ es.keys → listed es x = [] := by
      intro x hx
      rw [listed, dlookup_eq_none.mpr hx]
      rfl
    simp only [foldl_append, foldl_cons, foldl_nil, lookup_node_inDegree, lookup_node_dependents, listed_snoc hid]
    refine ⟨?_, ?_⟩
    · have hdegree : ∀ x, ((if x ∈ es.keys ∨ ∃ e ∈ es, x ∈ e.2 then some (listed es x).length else none).getD 0) =
          (listed es x).length := by
        intro x
        split
        · rfl
        · next hx => rw [hnone x (fun h => hx (.inl h))]; rfl
      rw [(ih id).1, (ih m).1, hdegree, hdegree]
      by_cases hm : m = id
      · subst hm
        simp [hnone m hid]
      · by_cases hmd : m ∈ ds
        · simp [hm, hmd]
        · rw [if_neg hm, if_neg hmd, if_neg hm]
          exact if_congr (by simp [hm, hmd]) rfl rfl
    · rw [(ih m).2]
      by_cases hmd : m ∈ ds
      · by_cases hex : ∃ e ∈ es, m ∈ e.2
        · simp [hmd, hex]
        · have hnil : es.filter (fun e => m ∈ e.2) = [] := by
            rw [filter_eq_nil_iff]
            intro e he
            simpa using fun h => hex ⟨e, he, h⟩
          simp [hmd, hex, hnil]
      · rw [if_neg hmd]
        exact if_congr (by simp [hmd]) (by simp [hmd]) rfl

theorem dependsOn_iff {a b : Id} : DependsOn deps a b ↔ ∃ set, deps.lookup a = some set ∧ b ∈ set := by
  rw [DependsOn, dependenciesOf]
  rcases deps.lookup a with _ | set
  · simp
  · simp [HashSet.mem_items]

theorem mem_dependentsOf {a b : Id} : a ∈ dependentsOf deps b ↔ DependsOn deps a b := by
  simp only [dependentsOf, mem_map, mem_filter, decide_eq_true_eq, dependsOn_iff]
  constructor
  · rintro ⟨⟨a, set⟩, ⟨hmem, hb⟩, rfl⟩
    exact ⟨set, AList.mem_lookup_iff.mpr hmem, hb⟩
  · rintro ⟨set, hset, hb⟩
    exact ⟨⟨a, set⟩, ⟨AList.mem_lookup_iff.mp hset, hb⟩, rfl⟩

theorem nodup_dependentsOf (b : Id) : (dependentsOf deps b).Nodup :=
  (List.Sublist.map _ filter_sublist).nodup deps.keys_nodup

theorem nodup_dependenciesOf (a : Id) : (dependenciesOf deps a).Nodup := by
  rw [dependenciesOf]
  rcases deps.lookup a with _ | set
  · exact nodup_nil
  · exact set.nodup

theorem exists_mem_iff : (∃ e ∈ deps.entries, m ∈ e.2) ↔ ∃ b, DependsOn deps b m := by
  simp only [dependsOn_iff]
  constructor
  · rintro ⟨⟨b, set⟩, hmem, hm⟩
    exact ⟨b, set, AList.mem_lookup_iff.mpr hmem, hm⟩
  · rintro ⟨b, set, hset, hm⟩
    exact ⟨⟨b, set⟩, AList.mem_lookup_iff.mp hset, hm⟩

/-- Every id that is mentioned has as its degree the number of its dependencies. -/
theorem lookup_inDegree : (Mentioned deps m → (degrees deps).inDegree.lookup m = some (dependenciesOf deps m).length) ∧
      (¬Mentioned deps m → (degrees deps).inDegree.lookup m = none) := by
  have hlookup := (lookup_degrees deps.nodupKeys m).1
  have hmention : Mentioned deps m ↔ m ∈ deps.entries.keys ∨ ∃ e ∈ deps.entries, m ∈ e.2 := or_congr Iff.rfl exists_mem_iff.symm
  exact ⟨fun hm => hlookup.trans (if_pos (hmention.mp hm)), fun hm => hlookup.trans (if_neg (hm ∘ hmention.mpr))⟩

/-- The reverse edges of an id are its dependents. -/
theorem lookup_dependents (deps : Deps) (m : Id) : ((degrees deps).dependents.lookup m).getD [] = dependentsOf deps m := by
  have hlookup := (lookup_degrees deps.nodupKeys m).2
  by_cases hm : ∃ b, DependsOn deps b m
  · exact congrArg (fun o => o.getD []) (hlookup.trans (if_pos (exists_mem_iff.mpr hm)))
  · have hnil : dependentsOf deps m = [] := eq_nil_iff_forall_not_mem.mpr (fun b hb => hm ⟨b, mem_dependentsOf.mp hb⟩)
    rw [hnil]
    exact congrArg (fun o => o.getD []) (hlookup.trans (if_neg (hm ∘ exists_mem_iff.mp)))

/-! ## Kahn's algorithm -/

/-- Taking one dependency off each of some nodes that have one left. -/
theorem settle_eq {ms : List Id} (hms : ms.Nodup) (ready : List Id) (hpos : ∀ m ∈ ms, ∃ e, inDegree.lookup m = some (e + 1)) :
    ∃ inDegree', settle ms inDegree ready = .ok (inDegree', ready ++ ms.filter (fun m => inDegree.lookup m = some 1)) ∧
      ∀ m, inDegree'.lookup m = if m ∈ ms then (inDegree.lookup m).map Nat.pred else inDegree.lookup m := by
  induction ms generalizing inDegree ready with
  | nil => exact ⟨inDegree, by simp [settle], fun m => by simp⟩
  | cons m ms ih =>
    obtain ⟨hm, hms'⟩ := nodup_cons.mp hms
    obtain ⟨e, he⟩ := hpos m mem_cons_self
    have hne : ∀ k ∈ ms, k ≠ m := fun k hk h => hm (h ▸ hk)
    have hpos' : ∀ k ∈ ms, ∃ e', (inDegree.insert m e).lookup k = some (e' + 1) := by
      intro k hk
      rw [AList.lookup_insert_ne (hne k hk)]
      exact hpos k (mem_cons_of_mem _ hk)
    obtain ⟨inDegree', hsettle, hlookup⟩ := ih hms' (if e = 0 then ready ++ [m] else ready) hpos'
    refine ⟨inDegree', ?_, fun k => ?_⟩
    · have hfilter : ms.filter (fun k => (inDegree.insert m e).lookup k = some 1) = ms.filter (fun k => inDegree.lookup k = some 1) :=
        filter_congr (fun k hk => by rw [AList.lookup_insert_ne (hne k hk)])
      rw [settle, he]
      simp only
      rw [hsettle, hfilter, filter_cons, he]
      by_cases h0 : e = 0 <;> simp [h0]
    · rw [hlookup k]
      by_cases hk : k = m
      · subst hk
        simp [hm, he]
      · simp [hk]

/-- The dependencies of a node that are not in a list. -/
def missing (deps : Deps) (order : List Id) (m : Id) : List Id := (dependenciesOf deps m).filter (fun d => d ∉ order)

/-- The invariant of the loop: the degrees count the dependencies that are not done; the nodes without any are those done and those
in the queue; and the nodes done are in order. -/
structure KahnInv (deps : Deps) (inDegree : HashMap Id Nat) (queue order : List Id) : Prop where
  degree : ∀ m, Mentioned deps m → inDegree.lookup m = some (missing deps order m).length
  absent : ∀ m, ¬Mentioned deps m → inDegree.lookup m = none
  nodup : (order ++ queue).Nodup
  mem : ∀ m, m ∈ order ++ queue ↔ Mentioned deps m ∧ missing deps order m = []
  topological : Graph.Topological (DependsOn deps) order

theorem mem_missing : d ∈ missing deps order m ↔ DependsOn deps m d ∧ d ∉ order := by
  rw [missing, mem_filter, decide_eq_true_eq]
  rfl

/-- One more node done is one dependency less for its dependents. -/
theorem missing_snoc (hn : n ∉ order) :
    (missing deps order m).length = (missing deps (order ++ [n]) m).length + if DependsOn deps m n then 1 else 0 := by
  have hnodup : (missing deps order m).Nodup := (nodup_dependenciesOf m).filter _
  have herase : missing deps (order ++ [n]) m = (missing deps order m).erase n := by
    rw [hnodup.erase_eq_filter, missing, missing, filter_filter]
    refine filter_congr (fun d _ => ?_)
    by_cases hd : d = n <;> by_cases ho : d ∈ order <;> simp [hd]
  have hmem : n ∈ missing deps order m ↔ DependsOn deps m n := by simp [mem_missing, hn]
  rw [herase]
  by_cases hdep : DependsOn deps m n
  · have hpos := length_pos_of_mem (hmem.mpr hdep)
    rw [if_pos hdep, length_erase_of_mem (hmem.mpr hdep)]
    omega
  · rw [if_neg hdep, erase_of_not_mem (hdep ∘ hmem.mp), Nat.add_zero]

theorem KahnInv.mem_keys (h : KahnInv deps inDegree queue order) (m : Id) : m ∈ inDegree.keys ↔ Mentioned deps m := by
  rw [← AList.mem_keys, ← AList.lookup_isSome]
  by_cases hm : Mentioned deps m
  · rw [h.degree m hm]
    exact iff_of_true rfl hm
  · rw [h.absent m hm]
    exact iff_of_false (by simp) hm

/-- Nodes done and nodes in the queue are no more than there are nodes. -/
theorem KahnInv.length_le (h : KahnInv deps inDegree queue order) : order.length + queue.length ≤ inDegree.entries.length := by
  have hsub : order ++ queue ⊆ inDegree.keys := fun m hm => (h.mem_keys m).mpr ((h.mem m).mp hm).1
  have hle := (h.nodup.subperm hsub).length_le
  rwa [length_append, AList.keys, keys, length_map] at hle

/-- One turn of the loop. -/
theorem KahnInv.turn (h : KahnInv deps inDegree (n :: queue) order) :
    ∃ inDegree' ready, settle (dependentsOf deps n) inDegree [] = .ok (inDegree', ready) ∧
      ∀ ready', ready'.Perm ready → KahnInv deps inDegree' (queue ++ ready') (order ++ [n]) := by
  obtain ⟨hnm, hnmiss⟩ := (h.mem n).mp (by simp)
  have hno : n ∉ order := fun hn => (nodup_append'.mp h.nodup).2.2 hn mem_cons_self
  have hsnoc : ∀ m, (missing deps order m).length = (missing deps (order ++ [n]) m).length + if DependsOn deps m n then 1 else 0 :=
    fun m => missing_snoc hno
  have hdependent : ∀ m ∈ dependentsOf deps n, DependsOn deps m n ∧ Mentioned deps m := by
    intro m hm
    have hdep := mem_dependentsOf.mp hm
    obtain ⟨set, hset, -⟩ := dependsOn_iff.mp hdep
    exact ⟨hdep, .inl (AList.lookup_isSome.mp (by rw [hset]; rfl))⟩
  have hpos : ∀ m ∈ dependentsOf deps n, ∃ e, inDegree.lookup m = some (e + 1) := by
    intro m hm
    obtain ⟨hdep, hment⟩ := hdependent m hm
    refine ⟨(missing deps (order ++ [n]) m).length, ?_⟩
    rw [h.degree m hment, hsnoc m, if_pos hdep]
  obtain ⟨inDegree', hsettle, hlookup⟩ := settle_eq (nodup_dependentsOf n) [] hpos
  refine ⟨inDegree', _, hsettle, fun ready' hready => ?_⟩
  rw [nil_append] at hready
  -- the nodes that become ready are those for which only `n` was missing
  have hmemready : ∀ m, m ∈ ready' ↔ DependsOn deps m n ∧ missing deps (order ++ [n]) m = [] := by
    intro m
    rw [hready.mem_iff, mem_filter, decide_eq_true_eq, mem_dependentsOf]
    refine and_congr_right (fun hdep => ?_)
    obtain ⟨-, hment⟩ := hdependent m (mem_dependentsOf.mpr hdep)
    rw [h.degree m hment, hsnoc m, if_pos hdep, Option.some.injEq, ← length_eq_zero_iff]
    omega
  have hqueued : ∀ m, m ∈ (order ++ [n]) ++ (queue ++ ready') ↔ m ∈ order ++ n :: queue ∨ m ∈ ready' := by
    intro m
    simp [or_assoc]
  refine ⟨fun m hm => ?_, fun m hm => ?_, ?_, fun m => ?_, ?_⟩
  · rw [hlookup m, h.degree m hm, hsnoc m]
    by_cases hdep : DependsOn deps m n
    · simp [mem_dependentsOf, hdep]
    · simp [mem_dependentsOf, hdep]
  · rw [hlookup m, h.absent m hm, if_neg (fun hd => hm (hdependent m hd).2)]
  · have hready' : ready'.Nodup := hready.nodup_iff.mpr ((nodup_dependentsOf n).filter _)
    have hparts : (order ++ [n]) ++ (queue ++ ready') = (order ++ n :: queue) ++ ready' := by simp
    rw [hparts, nodup_append']
    refine ⟨h.nodup, hready', fun m hm hr => ?_⟩
    have hzero := congrArg length ((h.mem m).mp hm).2
    rw [hsnoc m, if_pos ((hmemready m).mp hr).1] at hzero
    simp at hzero
  · rw [hqueued m, h.mem m, hmemready m]
    constructor
    · rintro (⟨hm, hmiss⟩ | ⟨hdep, hmiss⟩)
      · refine ⟨hm, length_eq_zero_iff.mp ?_⟩
        have hzero := congrArg length hmiss
        rw [hsnoc m, length_nil] at hzero
        omega
      · exact ⟨(hdependent m (mem_dependentsOf.mpr hdep)).2, hmiss⟩
    · rintro ⟨hm, hmiss⟩
      by_cases hdep : DependsOn deps m n
      · exact .inr ⟨hdep, hmiss⟩
      · refine .inl ⟨hm, length_eq_zero_iff.mp ?_⟩
        rw [hsnoc m, if_neg hdep, hmiss]
        rfl
  · refine h.topological.snoc hno (fun d hd => ?_)
    by_contra hdo
    have hmem : d ∈ missing deps order n := mem_missing.mpr ⟨hd, hdo⟩
    rw [hnmiss] at hmem
    cases hmem

/-- A turn goes on with the ids that became ready, in order, and with as many counted ids as before. -/
theorem KahnInv.step (fuel : Nat) (h : KahnInv deps inDegree (n :: queue) order) :
    ∃ inDegree' ready, kahn (degrees deps).dependents (fuel + 1) inDegree (n :: queue) order =
        kahn (degrees deps).dependents fuel inDegree' (queue ++ ready) (order ++ [n]) ∧
      ready.Pairwise (· ≤ ·) ∧ KahnInv deps inDegree' (queue ++ ready) (order ++ [n]) ∧
      inDegree'.entries.length = inDegree.entries.length := by
  obtain ⟨inDegree', ready, hsettle, hinv⟩ := h.turn
  have hdependents := lookup_dependents deps n
  have hinv' := hinv (ready.insertionSort (· ≤ ·)) (perm_insertionSort _ _)
  have hperm : inDegree'.keys.Perm inDegree.keys :=
    (perm_ext_iff_of_nodup inDegree'.keys_nodup inDegree.keys_nodup).mpr (fun m => (hinv'.mem_keys m).trans (h.mem_keys m).symm)
  have hlen := hperm.length_eq
  simp only [AList.keys, keys, length_map] at hlen
  refine ⟨inDegree', ready.insertionSort (· ≤ ·), ?_, pairwise_insertionSort _ _, hinv', hlen⟩
  rw [kahn]
  rcases hlook : (degrees deps).dependents.lookup n with _ | depsOf
  · rw [hlook] at hdependents
    rw [← hdependents] at hsettle
    cases hsettle
    rw [insertionSort_nil, append_nil]
  · rw [hlook] at hdependents
    obtain rfl : depsOf = dependentsOf deps n := hdependents
    simp only [hsettle]

/-- The loop ends with an empty queue, given as many turns as there are nodes left. -/
theorem KahnInv.loop (fuel : Nat) (h : KahnInv deps inDegree queue order) (hfuel : inDegree.entries.length ≤ order.length + fuel) :
    ∃ inDegree' order', kahn (degrees deps).dependents fuel inDegree queue order = .ok (inDegree', order') ∧
      KahnInv deps inDegree' [] order' := by
  induction fuel generalizing inDegree queue order with
  | zero =>
    have hle := h.length_le
    rcases queue with _ | ⟨n, queue⟩
    · exact ⟨inDegree, order, rfl, h⟩
    · rw [length_cons] at hle
      omega
  | succ fuel ih =>
    rcases queue with _ | ⟨n, queue⟩
    · exact ⟨inDegree, order, rfl, h⟩
    · obtain ⟨inDegree', ready, hstep, -, hinv, hlen⟩ := h.step fuel
      rw [hstep]
      exact ih hinv (by rw [length_append, length_singleton]; omega)

/-- The loop starts with the nodes that depend on nothing. -/
theorem kahnInv_start {es : List (Sigma fun _ : Id => Nat)} (hes : es.Perm (degrees deps).inDegree.entries) :
    KahnInv deps (degrees deps).inDegree (((es.filter (fun e => e.2 = 0)).map (fun e => e.1)).insertionSort (· ≤ ·)) [] := by
  have hmissing : ∀ m, missing deps [] m = dependenciesOf deps m := fun m => by simp [missing]
  refine ⟨fun m hm => ?_, fun m hm => lookup_inDegree.2 hm, ?_, fun m => ?_, Graph.topological_nil⟩
  · rw [hmissing]
    exact lookup_inDegree.1 hm
  · rw [nil_append, (perm_insertionSort _ _).nodup_iff]
    have hkeys : (es.map Sigma.fst).Nodup := (hes.map _).nodup_iff.mpr (degrees deps).inDegree.keys_nodup
    exact (List.Sublist.map _ filter_sublist).nodup hkeys
  · rw [nil_append, (perm_insertionSort _ _).mem_iff, hmissing]
    simp only [mem_map, mem_filter, decide_eq_true_eq, hes.mem_iff]
    constructor
    · rintro ⟨⟨m, e⟩, ⟨hmem, he⟩, rfl⟩
      subst he
      have hlook := AList.mem_lookup_iff.mpr hmem
      by_cases hm : Mentioned deps m
      · rw [lookup_inDegree.1 hm] at hlook
        exact ⟨hm, length_eq_zero_iff.mp (Option.some.inj hlook)⟩
      · rw [lookup_inDegree.2 hm] at hlook
        cases hlook
    · rintro ⟨hm, hnil⟩
      refine ⟨⟨m, 0⟩, ⟨AList.mem_lookup_iff.mp ?_, rfl⟩, rfl⟩
      rw [lookup_inDegree.1 hm, hnil]
      rfl

/-! ## The order -/

variable {iter : HashMap Id Nat → List (Sigma fun _ : Id => Nat)}

/-- A dependency map has an order just in case it is acyclic. The order has every id that is mentioned, after its dependencies. -/
theorem topoOrderBy_spec (hiter : ∀ counts, (iter counts).Perm counts.entries) :
    (∃ order, topoOrderBy iter deps = .ok order ∧ Graph.Topological (DependsOn deps) order ∧ ∀ m, m ∈ order ↔ Mentioned deps m) ∧
        Graph.Acyclic (DependsOn deps) ∨
      (∃ ids, topoOrderBy iter deps = .error (.error (.cyclicDependency ids))) ∧ ¬Graph.Acyclic (DependsOn deps) := by
  obtain ⟨inDegree, order, hkahn, hinv⟩ := (kahnInv_start (hiter _)).loop (degrees deps).inDegree.entries.length
    (by rw [length_nil, Nat.zero_add])
  have hmem : ∀ m, m ∈ order ↔ Mentioned deps m ∧ missing deps order m = [] := by
    intro m
    have := hinv.mem m
    rwa [append_nil] at this
  have hnodup : order.Nodup := by
    have := hinv.nodup
    rwa [append_nil] at this
  have hsub : order.Subperm inDegree.keys := hnodup.subperm (fun m hm => (hinv.mem_keys m).mpr ((hmem m).mp hm).1)
  have hlen : inDegree.keys.length = inDegree.entries.length := by simp [AList.keys, keys]
  rw [topoOrderBy]
  simp only [hkahn]
  by_cases hfull : order.length = inDegree.entries.length
  · left
    rw [if_neg (not_not.mpr hfull)]
    have hall : ∀ m, m ∈ order ↔ Mentioned deps m := by
      intro m
      have hperm := hsub.perm_of_length_le (by omega)
      rw [hperm.mem_iff, hinv.mem_keys]
    refine ⟨⟨order, rfl, hinv.topological, hall⟩, hinv.topological.acyclic (fun a b hab => (hall a).mpr ?_)⟩
    obtain ⟨set, hset, -⟩ := dependsOn_iff.mp hab
    exact .inl (AList.lookup_isSome.mp (by rw [hset]; rfl))
  · right
    rw [if_pos hfull]
    refine ⟨⟨_, rfl⟩, fun hacyclic => ?_⟩
    -- every node that is left depends on another one that is left
    obtain ⟨a, ha⟩ : ∃ a, a ∈ inDegree.keys.filter (fun m => m ∉ order) := by
      by_contra hnone
      have hall : inDegree.keys ⊆ order := by
        intro m hm
        by_contra hmo
        exact hnone ⟨m, mem_filter.mpr ⟨hm, by simpa using hmo⟩⟩
      have hle := (inDegree.keys_nodup.subperm hall).length_le
      have hge := hsub.length_le
      omega
    have hleft : ∀ m ∈ inDegree.keys.filter (fun m => m ∉ order), ∃ d ∈ inDegree.keys.filter (fun m => m ∉ order),
        DependsOn deps m d := by
      intro m hm
      obtain ⟨hmk, hmo⟩ := mem_filter.mp hm
      have hment := (hinv.mem_keys m).mp hmk
      have hmiss : missing deps order m ≠ [] := fun hnil => of_decide_eq_true hmo ((hmem m).mpr ⟨hment, hnil⟩)
      obtain ⟨d, hd⟩ := exists_mem_of_ne_nil _ hmiss
      obtain ⟨hdep, hdo⟩ := mem_missing.mp hd
      exact ⟨d, mem_filter.mpr ⟨(hinv.mem_keys d).mpr (.inr ⟨m, hdep⟩), decide_eq_true hdo⟩, hdep⟩
    obtain ⟨c, hc⟩ := Graph.exists_cycle (ne_nil_of_mem ha) hleft
    exact hacyclic c hc

theorem topoOrder_spec :
    (∃ order, topoOrder deps = .ok order ∧ Graph.Topological (DependsOn deps) order ∧ ∀ m, m ∈ order ↔ Mentioned deps m) ∧
        Graph.Acyclic (DependsOn deps) ∨
      (∃ ids, topoOrder deps = .error (.error (.cyclicDependency ids))) ∧ ¬Graph.Acyclic (DependsOn deps) :=
  @topoOrderBy_spec deps AList.entries (fun _ => .refl _)

/-! ## Closures -/

theorem mem_dependencyClosure : n ∈ dependencyClosure deps id ↔ ReflTransGen (DependsOn deps) id n := by
  have hnodes : ∀ m, m ∉ deps.keys → dependenciesOf deps m = [] := by
    intro m hm
    rw [dependenciesOf, AList.lookup_eq_none.mpr hm]
    rfl
  rw [dependencyClosure, Graph.mem_reach hnodes (Nat.le_refl _) (fun _ h => absurd h not_mem_nil)]
  simp only [not_mem_nil, false_or, mem_singleton, exists_eq_left]
  rfl

theorem mem_dependentClosure : n ∈ dependentClosure deps id ↔ ReflTransGen (DependsOn deps) n id := by
  have hnodes : ∀ m, m ∉ deps.entries.flatMap (fun e => e.2.items) → dependentsOf deps m = [] := by
    intro m hm
    rw [dependentsOf, filter_eq_nil_iff.mpr]
    · rfl
    · intro e he
      rw [decide_eq_true_eq]
      exact fun h => hm (mem_flatMap.mpr ⟨e, he, h⟩)
  rw [dependentClosure, Graph.mem_reach hnodes (Nat.le_refl _) (fun _ h => absurd h not_mem_nil)]
  simp only [not_mem_nil, false_or, mem_singleton, exists_eq_left, mem_dependentsOf]
  exact reflTransGen_swap

end Ferroly.Lifecycle
