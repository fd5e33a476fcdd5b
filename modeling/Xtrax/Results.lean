import Mathlib.Data.List.Forall2
import Mathlib.Tactic.Common

/-!
# Computations that return or raise

What it takes for a computation to return: each of its steps returned.  A loop that may raise
keeps what each of its rounds keeps (`foldlM_keeps`).
-/

namespace Xtrax.Results

open Except List Option

variable {ε α β σ : Type} {as : List α} {f : α → Except ε β}

theorem bind_eq_ok {x : Except ε α} {b : β} : x >>= f = .ok b ↔ ∃ a, x = .ok a ∧ f a = .ok b := by
  cases x with
  | error e => exact ⟨nofun, fun ⟨_, h, _⟩ => nomatch h⟩
  | ok a => exact ⟨fun h => ⟨a, rfl, h⟩, fun ⟨_, rfl, h⟩ => h⟩

theorem bind_eq_error {x : Except ε α} {e : ε} (h : x >>= f = .error e) :
    x = .error e ∨ ∃ a, x = .ok a ∧ f a = .error e := by
  cases x with
  | error e' => exact .inl (congrArg error (error.inj h))
  | ok a => exact .inr ⟨a, rfl, h⟩

theorem mapError_eq_ok {ε' : Type} {x : Except ε α} {f : ε → ε'} {a : α} :
    x.mapError f = .ok a ↔ x = .ok a := by
  cases x with
  | error e => exact ⟨nofun, nofun⟩
  | ok a' =>
    show ok a' = ok a ↔ ok a' = ok a
    rw [ok.injEq, ok.injEq]

theorem map_eq_ok {g : α → β} {x : Except ε α} {b : β} :
    x.map g = .ok b ↔ ∃ a, x = .ok a ∧ g a = b := by
  cases x with
  | error e => exact ⟨nofun, fun ⟨_, h, _⟩ => nomatch h⟩
  | ok a => exact ⟨fun h => ⟨a, rfl, ok.inj h⟩, fun ⟨_, ha, h⟩ => ok.inj ha ▸ congrArg ok h⟩

theorem mapM_eq_ok :
    ∀ {bs : List β}, as.mapM f = .ok bs ↔ List.Forall₂ (fun a b => f a = .ok b) as bs := by
  induction as with
  | nil =>
    intro bs
    rw [mapM_nil, forall₂_nil_left_iff]
    exact ⟨fun h => (ok.inj h).symm, fun h => h ▸ rfl⟩
  | cons a as ih =>
    intro bs
    rw [mapM_cons, bind_eq_ok]
    constructor
    · rintro ⟨b, hb, h⟩
      obtain ⟨bs', hbs, h⟩ := bind_eq_ok.mp h
      obtain rfl := ok.inj h
      exact .cons hb (ih.mp hbs)
    · rintro (_ | ⟨hb, hbs⟩)
      exact ⟨_, hb, bind_eq_ok.mpr ⟨_, ih.mpr hbs, rfl⟩⟩

theorem mapM_of_ok {g : α → β} (h : ∀ a ∈ as, f a = .ok (g a)) : as.mapM f = .ok (as.map g) :=
  mapM_eq_ok.mpr (forall₂_map_right_iff.mpr (forall₂_same.mpr h))

theorem mapM_eq_ok_iff {P : α → Prop} {g : α → β} (h : ∀ a ∈ as, ∀ b, f a = .ok b ↔ P a ∧ b = g a)
    {bs : List β} : as.mapM f = .ok bs ↔ (∀ a ∈ as, P a) ∧ bs = as.map g := by
  induction as generalizing bs with
  | nil =>
    rw [mapM_nil]
    exact ⟨fun hbs => ⟨nofun, (ok.inj hbs).symm⟩, fun hbs => congrArg ok hbs.2.symm⟩
  | cons a as ih =>
    have ih := @ih fun a ha => h a (mem_cons_of_mem _ ha)
    rw [mapM_cons, bind_eq_ok, forall_mem_cons, map_cons]
    constructor
    · rintro ⟨b, hb, hbs⟩
      obtain ⟨bs', hbs', hbs⟩ := bind_eq_ok.mp hbs
      obtain ⟨ha, rfl⟩ := (h a mem_cons_self b).mp hb
      obtain ⟨has, rfl⟩ := ih.mp hbs'
      exact ⟨⟨ha, has⟩, (ok.inj hbs).symm⟩
    · rintro ⟨⟨ha, has⟩, rfl⟩
      exact ⟨_, (h a mem_cons_self _).mpr ⟨ha, rfl⟩, bind_eq_ok.mpr ⟨_, ih.mpr ⟨has, rfl⟩, rfl⟩⟩

theorem mapM_eq_some {f : α → Option β} :
    ∀ {bs : List β}, as.mapM f = some bs ↔ List.Forall₂ (fun a b => f a = some b) as bs := by
  induction as with
  | nil =>
    intro bs
    rw [mapM_nil, forall₂_nil_left_iff]
    exact ⟨fun h => (some.inj h).symm, fun h => h ▸ rfl⟩
  | cons a as ih =>
    intro bs
    rw [mapM_cons]
    constructor
    · intro h
      obtain ⟨b, hb, h⟩ := bind_eq_some_iff.mp h
      obtain ⟨bs', hbs, h⟩ := bind_eq_some_iff.mp h
      obtain rfl := some.inj h
      exact .cons hb (ih.mp hbs)
    · rintro (_ | ⟨hb, hbs⟩)
      exact bind_eq_some_iff.mpr ⟨_, hb, bind_eq_some_iff.mpr ⟨_, ih.mpr hbs, rfl⟩⟩

theorem exists_mapM_some {f : α → Option β} (h : ∀ a ∈ as, (f a).isSome) :
    ∃ bs, as.mapM f = some bs := by
  induction as with
  | nil => exact ⟨[], rfl⟩
  | cons a as ih =>
    obtain ⟨ha, has⟩ := forall_mem_cons.mp h
    obtain ⟨b, hb⟩ := isSome_iff_exists.mp ha
    obtain ⟨bs, hbs⟩ := ih has
    exact ⟨b :: bs, mapM_eq_some.mpr (.cons hb (mapM_eq_some.mp hbs))⟩

theorem exists_of_forall₂ {R : α → β → Prop} {bs : List β} (h : List.Forall₂ R as bs) {a : α}
    (ha : a ∈ as) : ∃ b ∈ bs, R a b := by
  induction h with
  | nil => exact nomatch ha
  | cons hab _ ih =>
    rcases mem_cons.mp ha with rfl | ha
    · exact ⟨_, mem_cons_self, hab⟩
    · obtain ⟨b, hb, hab⟩ := ih ha
      exact ⟨b, mem_cons_of_mem _ hb, hab⟩

theorem map_eq_of_forall₂ {γ : Type} {f : α → γ} {g : β → γ} {bs : List β}
    (h : List.Forall₂ (fun a b => g b = f a) as bs) : bs.map g = as.map f := by
  induction h with
  | nil => rfl
  | cons hab _ ih => rw [map_cons, map_cons, hab, ih]

theorem forM_eq_ok {f : α → Except ε Unit} (h : as.forM f = .ok ()) : ∀ a ∈ as, f a = .ok () := by
  induction as with
  | nil => exact fun _ ha => nomatch ha
  | cons a as ih =>
    change (f a >>= fun _ => as.forM f) = .ok () at h
    obtain ⟨⟨⟩, hhead, htail⟩ := bind_eq_ok.mp h
    intro b hb
    rcases mem_cons.mp hb with rfl | hb
    · exact hhead
    · exact ih htail b hb

/-! ### Computations that return -/

theorem exists_mapM (h : ∀ a ∈ as, ∃ b, f a = .ok b) : ∃ bs, as.mapM f = .ok bs := by
  induction as with
  | nil => exact ⟨[], rfl⟩
  | cons a as ih =>
    obtain ⟨b, hb⟩ := h a mem_cons_self
    obtain ⟨bs, hbs⟩ := ih fun a ha => h a (mem_cons_of_mem _ ha)
    refine ⟨b :: bs, ?_⟩
    rw [mapM_cons, hb, hbs]
    rfl

theorem forM_ok {f : α → Except ε Unit} (h : ∀ a ∈ as, f a = .ok ()) : as.forM f = .ok () := by
  induction as with
  | nil => rfl
  | cons a as ih =>
    change (f a >>= fun _ => as.forM f) = .ok ()
    rw [h a mem_cons_self]
    exact ih fun a ha => h a (mem_cons_of_mem _ ha)

theorem exists_foldlM {f : σ → α → Except ε σ} (h : ∀ a ∈ as, ∀ s, ∃ s', f s a = .ok s') (s : σ) :
    ∃ s', as.foldlM f s = .ok s' := by
  induction as generalizing s with
  | nil => exact ⟨s, rfl⟩
  | cons a as ih =>
    obtain ⟨s₁, h₁⟩ := h a mem_cons_self s
    rw [foldlM_cons, h₁]
    exact ih (fun a ha => h a (mem_cons_of_mem _ ha)) s₁

/-! ### Lookups in lists of entries -/

section Lookup

variable {κ : Type} [BEq κ] [LawfulBEq κ] {k : κ} {v : β} {entries entries' : List (κ × β)}

theorem lookup_eq_some (h : (entries.map Prod.fst).Nodup) :
    entries.lookup k = some v ↔ (k, v) ∈ entries := by
  induction entries with
  | nil => exact ⟨nofun, nofun⟩
  | cons e entries ih =>
    rw [map_cons, nodup_cons] at h
    rw [lookup_cons, mem_cons]
    by_cases hk : k = e.1
    · rw [beq_iff_eq.mpr hk]
      constructor
      · intro hv
        obtain rfl := some.inj hv
        exact .inl (by rw [hk])
      · rintro (rfl | hmem)
        · rfl
        · exact absurd (hk ▸ mem_map_of_mem hmem) h.1
    · rw [beq_eq_false_iff_ne.mpr hk, ih h.2]
      constructor
      · exact .inr
      · rintro (rfl | hmem)
        · exact absurd rfl hk
        · exact hmem

theorem lookup_perm (h : (entries.map Prod.fst).Nodup) (hp : entries'.Perm entries) (k : κ) :
    entries'.lookup k = entries.lookup k := by
  have h' : (entries'.map Prod.fst).Nodup := ((hp.map Prod.fst).nodup_iff).mpr h
  cases hk : entries.lookup k with
  | some v =>
    exact (lookup_eq_some h').mpr (hp.mem_iff.mpr ((lookup_eq_some h).mp hk))
  | none =>
    rw [eq_none_iff_forall_ne_some] at hk ⊢
    exact fun v hv => hk v ((lookup_eq_some h).mpr (hp.mem_iff.mp ((lookup_eq_some h').mp hv)))

omit [LawfulBEq κ] in
theorem lookup_map (f : β → α) (k : κ) (entries : List (κ × β)) :
    (entries.map fun e => (e.1, f e.2)).lookup k = (entries.lookup k).map f := by
  induction entries with
  | nil => rfl
  | cons e entries ih =>
    rw [map_cons, lookup_cons, lookup_cons, ih]
    cases k == e.1 <;> rfl

theorem find?_of_nodup [DecidableEq β] {f : α → β} {l : List α}
    (h : (l.map f).Nodup) {a : α} (ha : a ∈ l) :
    l.find? (fun b => f b = f a) = some a := by
  induction l with
  | nil => exact nomatch ha
  | cons b l ih =>
    rw [map_cons, nodup_cons] at h
    rcases mem_cons.mp ha with rfl | ha
    · rw [find?_cons_of_pos (by simp)]
    · have hne : f b ≠ f a := fun heq => h.1 (heq ▸ mem_map_of_mem ha)
      rw [find?_cons_of_neg (by simpa using hne)]
      exact ih h.2 ha

end Lookup

/-! ### Loops -/

theorem foldlM_keeps {f : σ → α → Except ε σ} {I : List α → σ → Prop}
    (hstep : ∀ a rest s s', I (a :: rest) s → f s a = .ok s' → I rest s') :
    ∀ {as : List α} {s s' : σ}, I as s → as.foldlM f s = .ok s' → I [] s' := by
  intro as
  induction as with
  | nil =>
    intro s s' hs h
    obtain rfl := ok.inj h
    exact hs
  | cons a as ih =>
    intro s s' hs h
    rw [foldlM_cons, bind_eq_ok] at h
    obtain ⟨s₁, h₁, h⟩ := h
    exact ih (hstep a as s s₁ hs h₁) h

end Xtrax.Results
