import Mathlib.Data.List.Forall2

/-!
Results that are described by what is sound to return and by what is at fault otherwise.

A result is settled when both descriptions are exact. Results that are settled stay so when they
are put together: one after the other, or for all members of a list, where the first member that is
not sound tells the fault.
-/

namespace ShiftReduce

variable {ε α β γ : Type}

theorem bind_eq_ok {x : Except ε α} {f : α → Except ε β} {b : β} :
    x >>= f = .ok b ↔ ∃ a, x = .ok a ∧ f a = .ok b := by
  cases x <;> simp [bind, Except.bind]

theorem bind_eq_error {x : Except ε α} {f : α → Except ε β} {e : ε} :
    x >>= f = .error e ↔ x = .error e ∨ ∃ a, x = .ok a ∧ f a = .error e := by
  cases x <;> simp [bind, Except.bind]

theorem map_eq_error {x : Except ε α} {f : α → β} {e : ε} :
    x.map f = .error e ↔ x = .error e := by
  cases x <;> simp [Except.map]

/-- An error under another name is no result. -/
theorem mapError_eq_ok {f : ε → γ} {x : Except ε β} {b : β} :
    x.mapError f = .ok b ↔ x = .ok b := by
  cases x <;> simp [Except.mapError]

/-- A result is `b` just if it is sound to have `b`, and it fails with `e` just if that is the
fault. -/
structure Settles (x : Except ε β) (Sound : β → Prop) (Fault : ε → Prop) : Prop where
  ok_iff : ∀ b, x = .ok b ↔ Sound b
  error_iff : ∀ e, x = .error e ↔ Fault e

/-- As a result is only one thing, it is enough that either a sound result or a fault exists. -/
theorem Settles.of {x : Except ε β} {Sound : β → Prop} {Fault : ε → Prop}
    (hok : ∀ b, Sound b → x = .ok b) (herror : ∀ e, Fault e → x = .error e)
    (htotal : (∃ b, Sound b) ∨ ∃ e, Fault e) : Settles x Sound Fault := by
  constructor
  · intro b
    refine ⟨fun hx => ?_, hok b⟩
    rcases htotal with ⟨b', hb'⟩ | ⟨e, he⟩
    · obtain rfl : b' = b := Except.ok.inj ((hok b' hb').symm.trans hx)
      exact hb'
    · cases (herror e he).symm.trans hx
  · intro e
    refine ⟨fun hx => ?_, herror e⟩
    rcases htotal with ⟨b, hb⟩ | ⟨e', he'⟩
    · cases (hok b hb).symm.trans hx
    · obtain rfl : e' = e := Except.error.inj ((herror e' he').symm.trans hx)
      exact he'

theorem Settles.exists_or {x : Except ε β} {Sound : β → Prop} {Fault : ε → Prop}
    (h : Settles x Sound Fault) : (∃ b, Sound b) ∨ ∃ e, Fault e := by
  cases hx : x with
  | ok b => exact .inl ⟨b, (h.ok_iff b).mp hx⟩
  | error e => exact .inr ⟨e, (h.error_iff e).mp hx⟩

theorem Settles.congr {x : Except ε β} {Sound Sound' : β → Prop} {Fault Fault' : ε → Prop}
    (h : Settles x Sound Fault) (hok : ∀ b, Sound b ↔ Sound' b) (herror : ∀ e, Fault e ↔ Fault' e) :
    Settles x Sound' Fault' :=
  ⟨fun b => (h.ok_iff b).trans (hok b), fun e => (h.error_iff e).trans (herror e)⟩

theorem Settles.bind {x : Except ε β} {f : β → Except ε γ} {Sound : β → Prop} {Fault : ε → Prop}
    {Sound' : β → γ → Prop} {Fault' : β → ε → Prop} (hx : Settles x Sound Fault)
    (hf : ∀ b, Sound b → Settles (f b) (Sound' b) (Fault' b)) :
    Settles (x >>= f) (fun c => ∃ b, Sound b ∧ Sound' b c)
      (fun e => Fault e ∨ ∃ b, Sound b ∧ Fault' b e) := by
  apply Settles.of
  · rintro c ⟨b, hb, hc⟩
    rw [(hx.ok_iff b).mpr hb]
    exact ((hf b hb).ok_iff c).mpr hc
  · rintro e (he | ⟨b, hb, he⟩)
    · rw [(hx.error_iff e).mpr he]
      rfl
    · rw [(hx.ok_iff b).mpr hb]
      exact ((hf b hb).error_iff e).mpr he
  · rcases hx.exists_or with ⟨b, hb⟩ | ⟨e, he⟩
    · rcases (hf b hb).exists_or with ⟨c, hc⟩ | ⟨e, he⟩
      · exact .inl ⟨c, b, hb, hc⟩
      · exact .inr ⟨e, .inr ⟨b, hb, he⟩⟩
    · exact .inr ⟨e, .inl he⟩

theorem Settles.map {x : Except ε β} {Sound : β → Prop} {Fault : ε → Prop}
    (h : Settles x Sound Fault) (g : β → γ) :
    Settles (x.map g) (fun c => ∃ b, Sound b ∧ g b = c) Fault := by
  obtain rfl : (fun b => x = .ok b) = Sound := funext fun b => propext (h.ok_iff b)
  obtain rfl : (fun e => x = .error e) = Fault := funext fun e => propext (h.error_iff e)
  cases x <;> constructor <;> simp [Except.map]

/-- The fault of the first member that is not sound. -/
def FirstFault (Sound : α → Prop) (Fault : α → ε → Prop) (xs : List α) (e : ε) : Prop :=
  ∃ before x after, xs = before ++ x :: after ∧ (∀ y ∈ before, Sound y) ∧ Fault x e

theorem not_firstFault_nil {Sound : α → Prop} {Fault : α → ε → Prop} {e : ε} :
    ¬ FirstFault Sound Fault [] e := by
  rintro ⟨before, x, after, h, -⟩
  simp at h

theorem firstFault_cons {Sound : α → Prop} {Fault : α → ε → Prop} {x : α} {xs : List α} {e : ε} :
    FirstFault Sound Fault (x :: xs) e ↔ Fault x e ∨ Sound x ∧ FirstFault Sound Fault xs e := by
  constructor
  · rintro ⟨before, y, after, h, hbefore, hy⟩
    cases before with
    | nil =>
      obtain ⟨rfl, rfl⟩ := List.cons.inj h
      exact .inl hy
    | cons z before =>
      obtain ⟨rfl, rfl⟩ := List.cons.inj h
      obtain ⟨hx, hbefore⟩ := List.forall_mem_cons.mp hbefore
      exact .inr ⟨hx, before, y, after, rfl, hbefore, hy⟩
  · rintro (hx | ⟨hx, before, y, after, rfl, hbefore, hy⟩)
    · exact ⟨[], x, xs, rfl, by simp, hx⟩
    · exact ⟨x :: before, y, after, rfl, List.forall_mem_cons.mpr ⟨hx, hbefore⟩, hy⟩

theorem mapM_eq_ok {f : α → Except ε β} {xs : List α} {ys : List β} :
    xs.mapM f = .ok ys ↔ List.Forall₂ (fun x y => f x = .ok y) xs ys := by
  induction xs generalizing ys with
  | nil =>
    simp only [List.mapM_nil, List.forall₂_nil_left_iff]
    exact ⟨fun h => (Except.ok.inj h).symm, fun h => h ▸ rfl⟩
  | cons x rest ih =>
    rw [List.mapM_cons, List.forall₂_cons_left_iff]
    cases hx : f x with
    | error e =>
      constructor
      · intro h
        cases h
      · rintro ⟨y, more, hy, -⟩
        cases hy
    | ok y =>
      cases hrest : rest.mapM f with
      | error e =>
        constructor
        · intro h
          cases h
        · rintro ⟨y', more, -, hmore, -⟩
          rw [ih.mpr hmore] at hrest
          cases hrest
      | ok more =>
        constructor
        · intro h
          cases h
          exact ⟨y, more, rfl, ih.mp hrest, rfl⟩
        · rintro ⟨y', more', hy, hmore, rfl⟩
          cases hy
          rw [ih.mpr hmore] at hrest
          cases hrest
          rfl

theorem mapM_eq_error {f : α → Except ε β} {xs : List α} {e : ε} :
    xs.mapM f = .error e ↔
      FirstFault (fun x => ∃ y, f x = .ok y) (fun x e => f x = .error e) xs e := by
  induction xs with
  | nil =>
    refine ⟨fun h => ?_, fun h => absurd h not_firstFault_nil⟩
    cases h
  | cons x rest ih =>
    rw [List.mapM_cons, firstFault_cons, ← ih]
    cases f x with
    | error e' => simp [bind, Except.bind]
    | ok y => cases rest.mapM f <;> simp [bind, Except.bind, pure, Except.pure]

/-- Reading one after another is settled by the members, up to the first that is not sound. -/
theorem Settles.mapM {f : α → Except ε β} {Sound : α → β → Prop} {Fault : α → ε → Prop}
    (h : ∀ x, Settles (f x) (Sound x) (Fault x)) (xs : List α) :
    Settles (xs.mapM f) (List.Forall₂ Sound xs)
      (FirstFault (fun x => ∃ y, Sound x y) Fault xs) := by
  constructor
  · intro ys
    simp only [mapM_eq_ok, (h _).ok_iff]
  · intro e
    simp only [mapM_eq_error, (h _).ok_iff, (h _).error_iff]

theorem exists_forall₂ {R : α → β → Prop} {xs : List α} :
    (∃ ys, List.Forall₂ R xs ys) ↔ ∀ x ∈ xs, ∃ y, R x y := by
  induction xs with
  | nil => simp
  | cons x rest ih =>
    rw [List.forall_mem_cons, ← ih]
    constructor
    · rintro ⟨ys, h⟩
      obtain ⟨y, more, hy, hmore, -⟩ := List.forall₂_cons_left_iff.mp h
      exact ⟨⟨y, hy⟩, more, hmore⟩
    · rintro ⟨⟨y, hy⟩, more, hmore⟩
      exact ⟨y :: more, .cons hy hmore⟩

theorem forall₂_comp {R : α → β → Prop} {S : β → γ → Prop} {xs : List α} {zs : List γ} :
    (∃ ys, List.Forall₂ R xs ys ∧ List.Forall₂ S ys zs) ↔
      List.Forall₂ (fun x z => ∃ y, R x y ∧ S y z) xs zs := by
  constructor
  · rintro ⟨ys, hR, hS⟩
    induction hR generalizing zs with
    | nil => cases hS; exact .nil
    | cons hxy _ ih =>
      cases hS with
      | cons hyz hS => exact .cons ⟨_, hxy, hyz⟩ (ih hS)
  · intro h
    induction h with
    | nil => exact ⟨[], .nil, .nil⟩
    | cons hxz _ ih =>
      obtain ⟨y, hxy, hyz⟩ := hxz
      obtain ⟨ys, hR, hS⟩ := ih
      exact ⟨y :: ys, .cons hxy hR, .cons hyz hS⟩

/-- Faults that are told by corresponding members. -/
theorem firstFault_of_forall₂ {R : α → β → Prop} {Sound : α → Prop} {Fault : α → ε → Prop}
    {Sound' : β → Prop} {Fault' : β → ε → Prop} {xs : List α} {ys : List β} {e : ε}
    (h : List.Forall₂ R xs ys) (hsound : ∀ x y, R x y → (Sound x ↔ Sound' y))
    (hfault : ∀ x y, R x y → (Fault x e ↔ Fault' y e)) :
    FirstFault Sound Fault xs e ↔ FirstFault Sound' Fault' ys e := by
  induction h with
  | nil => simp [not_firstFault_nil]
  | cons hxy _ ih => rw [firstFault_cons, firstFault_cons, hsound _ _ hxy, hfault _ _ hxy, ih]

theorem mem_of_forall₂ {R : α → β → Prop} {xs : List α} {ys : List β}
    (h : List.Forall₂ R xs ys) {y : β} (hy : y ∈ ys) : ∃ x ∈ xs, R x y := by
  induction h with
  | nil => simp at hy
  | cons hxy _ ih =>
    rcases List.mem_cons.mp hy with rfl | hy
    · exact ⟨_, List.mem_cons_self, hxy⟩
    · obtain ⟨x, hx, hR⟩ := ih hy
      exact ⟨x, List.mem_cons_of_mem _ hx, hR⟩

theorem exists_getElem?_of_forall₂ {R : α → β → Prop} {xs : List α} {ys : List β}
    (h : List.Forall₂ R xs ys) {k : Nat} {x : α} (hx : xs[k]? = some x) :
    ∃ y, ys[k]? = some y ∧ R x y := by
  induction h generalizing k with
  | nil => simp at hx
  | cons hxy _ ih =>
    cases k with
    | zero =>
      cases hx
      exact ⟨_, rfl, hxy⟩
    | succ k => exact ih hx

end ShiftReduce
