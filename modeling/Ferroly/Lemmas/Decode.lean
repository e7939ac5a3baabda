import Ferroly.Codec.Traits

/-!
# Decoding trees

What `decode` returns does not depend on the fuel once that covers the depth of the value, and the tolerant reading of `Vec` only
adds to the strict one: where no `Vec` occurs they are the same.
-/

namespace Ferroly

open List

variable {Γ : Env} {rule rule' : VecRule}

/-! ## Types inside of types -/

theorem Ty.Reaches.trans {s t u : Ty} (h : s.Reaches Γ t) (h' : t.Reaches Γ u) : s.Reaches Γ u := by
  induction h with
  | refl => exact h'
  | option _ ih => exact .option (ih h')
  | vec _ ih => exact .vec (ih h')
  | box _ ih => exact .box (ih h')
  | map _ ih => exact .map (ih h')
  | field hf _ ih => exact .field hf (ih h')

/-- The slot of a key is one of the plan. -/
theorem exists_of_slotOf {k : Str} {plan : List Slot} {i : Nat} {t : Ty} (h : slotOf k plan = some (i, t)) :
    ∃ f ∈ plan, f.ty = t := by
  induction plan generalizing i with
  | nil => cases h
  | cons f plan ih =>
    rw [slotOf] at h
    split at h
    · cases h
      exact ⟨f, mem_cons_self, rfl⟩
    · obtain ⟨s, hs, heq⟩ := Option.map_eq_some_iff.mp h
      cases heq
      obtain ⟨g, hg, ht⟩ := ih hs
      exact ⟨g, mem_cons_of_mem _ hg, ht⟩

/-! ## Comparing decoders -/

variable {α β : Type}

theorem mapM_eq_ok {f : α → Res β} {a : List α} {bs : List β} : a.mapM f = .ok bs ↔ List.Forall₂ (fun v b => f v = .ok b) a bs := by
  induction a generalizing bs with
  | nil =>
    rw [forall₂_nil_left_iff]
    constructor
    · intro h
      cases h
      rfl
    · rintro rfl
      rfl
  | cons v a ih =>
    rw [mapM_cons, except_bind_eq_ok, forall₂_cons_left_iff]
    constructor
    · rintro ⟨b, hb, h⟩
      obtain ⟨bs', hbs, h⟩ := except_bind_eq_ok.mp h
      cases h
      exact ⟨b, bs', hb, ih.mp hbs, rfl⟩
    · rintro ⟨b, bs', hb, hbs, rfl⟩
      exact ⟨b, hb, except_bind_eq_ok.mpr ⟨bs', ih.mpr hbs, rfl⟩⟩

variable {g g' : Value → Res Data}

theorem mapM_imp {a : List Value} {ds : List Data} (h : ∀ v ∈ a, ∀ x, g v = .ok x → g' v = .ok x) (hm : a.mapM g = .ok ds)
    : a.mapM g' = .ok ds := by
  rw [mapM_eq_ok, forall₂_iff_zip] at hm ⊢
  exact ⟨hm.1, fun hp => h _ (of_mem_zip hp).1 _ (hm.2 hp)⟩

variable {o : Object}

theorem decodeEntries_imp {acc es : List (Str × Data)} (h : ∀ e ∈ o, ∀ x, g e.2 = .ok x → g' e.2 = .ok x)
    (hm : decodeEntries g o acc = .ok es) :
    decodeEntries g' o acc = .ok es := by
  induction o generalizing acc with
  | nil => exact hm
  | cons e o ih =>
    rw [decodeEntries, except_bind_eq_ok] at hm ⊢
    obtain ⟨d, hd, hm⟩ := hm
    exact ⟨d, h e mem_cons_self d hd, ih (forall_mem_cons.mp h).2 hm⟩

theorem scanFields_imp {plan : List Slot} {g g' : Ty → Value → Res Data} {slots slots' : List (Option Data)}
    (h : ∀ f ∈ plan, ∀ e ∈ o, ∀ x, g f.ty e.2 = .ok x → g' f.ty e.2 = .ok x) (hm : scanFields plan g o slots = .ok slots')
    : scanFields plan g' o slots = .ok slots' := by
  induction o generalizing slots with
  | nil => exact hm
  | cons e o ih =>
    have htail : ∀ f ∈ plan, ∀ e ∈ o, ∀ x, g f.ty e.2 = .ok x → g' f.ty e.2 = .ok x :=
      fun f hf e he => h f hf e (mem_cons_of_mem _ he)
    rw [scanFields] at hm ⊢
    cases hs : slotOf e.1 plan with
    | none =>
      rw [hs] at hm
      exact ih htail hm
    | some s =>
      obtain ⟨i, t⟩ := s
      obtain ⟨f, hf, rfl⟩ := exists_of_slotOf hs
      rw [hs] at hm
      obtain ⟨d, hd, hm⟩ := except_bind_eq_ok.mp hm
      exact except_bind_eq_ok.mpr ⟨d, h f hf e mem_cons_self d hd, ih htail hm⟩

/-- When what one rule accepts another accepts too: they are the same, the first is strict, or no `Vec` is in sight. -/
def VecRule.Covers (Γ : Env) (rule rule' : VecRule) (t : Ty) : Prop :=
  rule = rule' ∨ rule = .strict ∨ ∀ u, ¬t.Reaches Γ (.vec u)

theorem VecRule.Covers.mono {t u : Ty} (h : VecRule.Covers Γ rule rule' t) (hu : t.Reaches Γ u) : VecRule.Covers Γ rule rule' u := by
  rcases h with h | h | h
  · exact .inl h
  · exact .inr (.inl h)
  · exact .inr (.inr (fun w hw => h w (hu.trans hw)))

/-- A success of one decoder is a success of another that covers it, if that holds of the fields of structs further down. -/
theorem decodeTy_imp {F F' : Ty → Value → Res Data} (t : Ty) {v : Value} {x : Data} (hr : VecRule.Covers Γ rule rule' t)
    (hF : ∀ name, t.Reaches Γ (.struct name) → ∀ f ∈ Γ.plan name, ∀ w y, w.depth < v.depth → F f.ty w = .ok y → F' f.ty w = .ok y)
    (h : decodeTy rule Γ F t v = .ok x) : decodeTy rule' Γ F' t v = .ok x := by
  induction t generalizing v x with
  | scalar s | string | enum name => exact h
  | option t ih =>
    cases v with
    | null => exact h
    | _ =>
      obtain ⟨d, hd, hx⟩ := map_eq_ok.mp h
      exact map_eq_ok.mpr ⟨d, ih (hr.mono (.option (.refl t))) (fun n hn => hF n (.option hn)) hd, hx⟩
  | box t ih =>
    obtain ⟨d, hd, hx⟩ := map_eq_ok.mp h
    exact map_eq_ok.mpr ⟨d, ih (hr.mono (.box (.refl t))) (fun n hn => hF n (.box hn)) hd, hx⟩
  | vec t ih =>
    have ih : ∀ w y, w.depth ≤ v.depth → decodeTy rule Γ F t w = .ok y → decodeTy rule' Γ F' t w = .ok y := fun w y hw =>
      ih (hr.mono (.vec (.refl t))) (fun n hn f hf u z hu => hF n (.vec hn) f hf u z (Nat.lt_of_lt_of_le hu hw))
    cases v with
    | array a =>
      obtain ⟨ds, hds, hx⟩ := map_eq_ok.mp h
      exact map_eq_ok.mpr ⟨ds, mapM_imp (fun w hw y => ih w y (Nat.le_of_lt (Value.depth_lt_array hw))) hds, hx⟩
    | _ =>
      rcases hr with rfl | rfl | hno
      · cases rule with
        | strict => cases h
        | tolerant =>
          first
          | exact h
          | obtain ⟨d, hd, hx⟩ := map_eq_ok.mp h
            exact map_eq_ok.mpr ⟨d, ih _ d (Nat.le_refl _) hd, hx⟩
      · cases h
      · exact absurd (.refl _) (hno t)
  | map t ih =>
    cases v with
    | object o =>
      obtain ⟨es, hes, hx⟩ := map_eq_ok.mp h
      refine map_eq_ok.mpr ⟨es, decodeEntries_imp (fun e he y => ?_) hes, hx⟩
      exact ih (hr.mono (.map (.refl t)))
        (fun n hn f hf u z hu => hF n (.map hn) f hf u z (Nat.lt_trans hu (Value.depth_lt_object he)))
    | _ => cases h
  | struct name =>
    cases v with
    | object o =>
      obtain ⟨slots, hslots, hx⟩ := except_bind_eq_ok.mp h
      refine except_bind_eq_ok.mpr ⟨slots, scanFields_imp (fun f hf e he y => ?_) hslots, hx⟩
      exact hF name (.refl _) f hf e.2 y (Value.depth_lt_object he)
    | _ => cases h

/-- Fuel above the depth of the value is enough, whatever rule covers the first. -/
theorem decodeFuel_imp {fuel fuel' : Nat} {t : Ty} {v : Value} {x : Data} (hr : VecRule.Covers Γ rule rule' t)
    (hv : v.depth < fuel') (h : decodeFuel rule Γ fuel t v = .ok x) : decodeFuel rule' Γ fuel' t v = .ok x := by
  induction fuel generalizing fuel' t v x with
  | zero => cases h
  | succ fuel ih =>
    obtain ⟨fuel', rfl⟩ : ∃ k, fuel' = k + 1 := ⟨fuel' - 1, by omega⟩
    refine decodeTy_imp t hr (fun name hn f hf w y hw => ?_) h
    exact ih (hr.mono (hn.trans (.field hf (.refl _)))) (by omega)

end Ferroly
