import ShiftReduce.Proofs.Derivations
import ShiftReduce.Proofs.Passes
import ShiftReduce.Proofs.WellFormed
import ShiftReduce.Sets

/-!
FIRST sets are exact.

`Facts.Starts` reads FIRST of a form off some facts. The facts that saturation ends with are closed
under the productions, which makes them complete, and each pass adds only what derivations
justify. Both together say that a symbol starts a form exactly if a derivation shows it in front,
and epsilon exactly if the form can vanish.
-/

namespace ShiftReduce

/-- A form without the epsilons in it. -/
def Form.visible (form : Form) : Form := form.filter (· ≠ .epsilon)

namespace Form

@[simp] theorem visible_nil : visible [] = [] := rfl

@[simp] theorem visible_append (a b : Form) : visible (a ++ b) = visible a ++ visible b :=
  List.filter_append a b

@[simp] theorem visible_epsilon (form : Form) : visible (.epsilon :: form) = visible form := by
  simp [visible]

theorem visible_cons {s : Symbol} (hs : s ≠ .epsilon) (form : Form) :
    visible (s :: form) = s :: visible form := by
  simp [visible, hs]

theorem visible_eq_self {form : Form} (h : .epsilon ∉ form) : form.visible = form := by
  apply List.filter_eq_self.mpr
  intro s hs
  have : s ≠ .epsilon := fun e => h (e ▸ hs)
  simpa using this

end Form

namespace Facts

/-- The set of a symbol, which is itself unless it is a nonterminal. -/
def setOf (f : Facts) : Symbol → List Symbol
  | .nonterminal n => f.of n
  | s => [s]

/-- Membership in FIRST of a form, as far as some facts tell. -/
def Starts (f : Facts) : Form → Symbol → Prop
  | [], s => s = .epsilon
  | x :: rest, s => s ∈ f.setOf x ∧ s ≠ .epsilon ∨ .epsilon ∈ f.setOf x ∧ Starts f rest s

variable {f : Facts} {names : List String} {a b form : Form} {s : Symbol}

theorem mem_setOf_terminal {x : Symbol} (hx : x.isNonterminal = false) :
    s ∈ f.setOf x ↔ s = x := by
  cases x with
  | nonterminal n => simp [Symbol.isNonterminal] at hx
  | _ => exact List.mem_singleton

theorem starts_append : f.Starts (a ++ b) s ↔
    f.Starts a s ∧ s ≠ .epsilon ∨ f.Starts a .epsilon ∧ f.Starts b s := by
  induction a with
  | nil => simp [Starts]
  | cons x rest ih =>
    simp only [List.cons_append, Starts, ih]
    grind

theorem starts_visible : f.Starts form.visible s ↔ f.Starts form s := by
  induction form with
  | nil => exact Iff.rfl
  | cons x rest ih =>
    by_cases hx : x = .epsilon
    · subst hx
      simp [Starts, setOf, ih]
    · rw [Form.visible_cons hx]
      simp only [Starts, ih]

theorem starts_singleton {n : String} : f.Starts [.nonterminal n] s ↔ (n, s) ∈ f := by
  by_cases hs : s = .epsilon <;> simp [Starts, setOf, hs]

/-- A symbol that starts a form stands in it, is epsilon, or belongs to the set of a nonterminal. -/
theorem Starts.cases (h : f.Starts form s) : s = .epsilon ∨ s ∈ form ∨ ∃ n, (n, s) ∈ f := by
  induction form with
  | nil => exact .inl h
  | cons x rest ih =>
    rcases h with ⟨h, -⟩ | ⟨-, h⟩
    · cases x with
      | nonterminal n => exact .inr (.inr ⟨n, mem_of.mp h⟩)
      | _ => exact .inr (.inl (List.mem_singleton.mp h ▸ List.mem_cons_self))
    · rcases ih h with h | h | h
      · exact .inl h
      · exact .inr (.inl (List.mem_cons_of_mem _ h))
      · exact .inr (.inr h)

end Facts

section Computed

variable {f : Facts} {names : List String} {form : Form}

theorem firstOfSymbol_ok {x : Symbol} {found : List Symbol}
    (h : firstOfSymbol names f x = .ok found) : found = f.setOf x := by
  cases x with
  | nonterminal n =>
    simp only [firstOfSymbol] at h
    split at h
    · exact (Except.ok.inj h).symm
    · cases h
  | _ => exact (Except.ok.inj h).symm

theorem mem_firstOfString {found : List Symbol} (h : firstOfString names f form = .ok found)
    {s : Symbol} : s ∈ found ↔ f.Starts form s := by
  induction form generalizing found with
  | nil =>
    obtain rfl : [.epsilon] = found := Except.ok.inj h
    exact List.mem_singleton
  | cons x rest ih =>
    simp only [firstOfString] at h
    cases hx : firstOfSymbol names f x with
    | error e =>
      rw [hx] at h
      cases h
    | ok set =>
      obtain rfl := firstOfSymbol_ok hx
      simp only [hx] at h
      by_cases hepsilon : .epsilon ∈ f.setOf x
      · simp only [hepsilon, if_true] at h
        cases hrest : firstOfString names f rest with
        | error e =>
          rw [hrest] at h
          cases h
        | ok more =>
          simp only [hrest] at h
          obtain rfl := Except.ok.inj h
          have hmore := ih hrest
          simp only [Facts.Starts, List.mem_append, List.mem_filter, hmore, decide_eq_true_eq]
          grind
      · simp only [hepsilon, if_false] at h
        obtain rfl := Except.ok.inj h
        simp only [Facts.Starts, hepsilon, false_and, or_false]
        exact ⟨fun hs => ⟨hs, fun e => hepsilon (e ▸ hs)⟩, And.left⟩

/-- FIRST of a form can be read off when its nonterminals are declared. -/
theorem exists_firstOfString (h : ∀ n, .nonterminal n ∈ form → n ∈ names) (f : Facts) :
    ∃ found, firstOfString names f form = .ok found := by
  induction form with
  | nil => exact ⟨_, rfl⟩
  | cons x rest ih =>
    obtain ⟨more, hmore⟩ := ih fun n hn => h n (List.mem_cons_of_mem _ hn)
    have hx : ∃ found, firstOfSymbol names f x = .ok found := by
      cases x with
      | nonterminal n =>
        refine ⟨f.of n, ?_⟩
        simp [firstOfSymbol, h n List.mem_cons_self]
      | _ => exact ⟨_, rfl⟩
    obtain ⟨found, hfound⟩ := hx
    simp only [firstOfString, hfound, hmore]
    split
    · exact ⟨_, rfl⟩
    · exact ⟨_, rfl⟩

end Computed

namespace Grammar

/-- Every production has the nonterminal that it belongs to as its head, and every nonterminal of a
body is one of the augmented grammar. -/
structure Declared (g : Grammar) : Prop where
  head_eq : ∀ o ∈ g.owned, o.2.head = o.1
  mem_of_mem_body : ∀ p ∈ g.augmentedProductions, ∀ n, .nonterminal n ∈ p.body → n ∈ g.names

variable {g : Grammar} {f t : Facts} {form : Form} {s : Symbol} {p : Production}
  {o : String × Production}

theorem mem_owned :
    o ∈ g.owned ↔ ∃ n ∈ g.augmentedNonterminals, n.name = o.1 ∧ o.2 ∈ n.productions := by
  obtain ⟨name, p⟩ := o
  simp only [owned, List.mem_flatMap, List.mem_map, Prod.mk.injEq]
  constructor
  · rintro ⟨n, hn, q, hq, hname, rfl⟩
    exact ⟨n, hn, hname, hq⟩
  · rintro ⟨n, hn, hname, hp⟩
    exact ⟨n, hn, p, hp, hname, rfl⟩

theorem owner_mem (ho : o ∈ g.owned) : o.1 ∈ g.names := by
  obtain ⟨n, hn, hname, -⟩ := mem_owned.mp ho
  exact hname ▸ List.mem_map_of_mem hn

theorem augmentedProductions_eq (g : Grammar) :
    g.augmentedProductions = g.augmentedNonterminals.flatMap Nonterminal.productions := by
  rfl

theorem mem_of_owned (ho : o ∈ g.owned) : o.2 ∈ g.augmentedProductions := by
  obtain ⟨n, hn, -, hp⟩ := mem_owned.mp ho
  exact augmentedProductions_eq g ▸ List.mem_flatMap.mpr ⟨n, hn, hp⟩

theorem exists_owned (hp : p ∈ g.augmentedProductions) : ∃ name, (name, p) ∈ g.owned := by
  obtain ⟨n, hn, hp⟩ := List.mem_flatMap.mp (augmentedProductions_eq g ▸ hp)
  exact ⟨n.name, mem_owned.mpr ⟨n, hn, rfl, hp⟩⟩

theorem WellFormed.declared (wf : g.WellFormed) : g.Declared where
  head_eq o ho := by
    obtain ⟨n, hn, hname, hp⟩ := mem_owned.mp ho
    rcases List.mem_cons.mp hn with rfl | hn
    · rw [List.mem_singleton.mp hp]
      exact hname
    · exact (wf.head_eq n hn _ hp).trans hname
  mem_of_mem_body _ hp _ hn := List.mem_cons_of_mem _ (wf.mem_heads_of_mem_body hp hn)

theorem Declared.owned (hg : g.Declared) (hp : p ∈ g.augmentedProductions) :
    (p.head, p) ∈ g.owned := by
  obtain ⟨name, ho⟩ := exists_owned hp
  rwa [hg.head_eq _ ho]

theorem Declared.head_mem (hg : g.Declared) (hp : p ∈ g.augmentedProductions) :
    p.head ∈ g.names :=
  owner_mem (hg.owned hp)

/-- The symbols that facts can be about. -/
def factSymbols (g : Grammar) : List Symbol :=
  .epsilon :: g.augmentedProductions.flatMap fun p => p.body

theorem factCount_eq (g : Grammar) : g.factCount = g.names.length * g.factSymbols.length := by
  simp [factCount, factSymbols]

theorem mem_factSymbols (hp : p ∈ g.augmentedProductions) (hs : s ∈ p.body) :
    s ∈ g.factSymbols :=
  List.mem_cons_of_mem _ (List.mem_flatMap.mpr ⟨p, hp, hs⟩)

/-- Facts with every fact that they lead to through a production. -/
def FirstClosed (g : Grammar) (f : Facts) : Prop :=
  ∀ p ∈ g.augmentedProductions, ∀ s, f.Starts p.body s → (p.head, s) ∈ f

/-- FIRST of a form, by derivations. -/
def First (g : Grammar) (form : Form) (s : Symbol) : Prop :=
  s = .epsilon ∧ g.Derives form.visible [] ∨
    s ≠ .epsilon ∧ s.isNonterminal = false ∧ ∃ rest, g.Derives form.visible (s :: rest)

/-- Facts that derivations justify. -/
def FirstSound (g : Grammar) (f : Facts) : Prop :=
  ∀ n s, (n, s) ∈ f → g.First [.nonterminal n] s

theorem addFirst_ok (h : g.addFirst f o = .ok t) :
    ∃ found, firstOfString g.names f o.2.body = .ok found ∧ t = f.addAll o.1 found := by
  unfold addFirst at h
  cases hfound : firstOfString g.names f o.2.body with
  | error e =>
    rw [hfound] at h
    cases h
  | ok found =>
    rw [hfound] at h
    cases h
    exact ⟨found, rfl, rfl⟩

theorem addFirst_grows (h : g.addFirst f o = .ok t) : f <+: t := by
  obtain ⟨found, -, rfl⟩ := addFirst_ok h
  exact Facts.prefix_addAll f o.1 found

theorem firstPass_grows (h : g.firstPass f = .ok t) : f <+: t :=
  foldlM_grows (fun _ _ _ _ => addFirst_grows) h

theorem addFirst_within (ho : o ∈ g.owned) (hf : f.Within g.names g.factSymbols)
    (h : g.addFirst f o = .ok t) : t.Within g.names g.factSymbols := by
  obtain ⟨found, hfound, rfl⟩ := addFirst_ok h
  apply hf.addAll (owner_mem ho)
  intro s hs
  rcases ((mem_firstOfString hfound).mp hs).cases with rfl | hs | ⟨n, hn⟩
  · exact List.mem_cons_self
  · exact mem_factSymbols (mem_of_owned ho) hs
  · exact (hf.mem _ hn).2

theorem firstPass_within (hf : f.Within g.names g.factSymbols) (h : g.firstPass f = .ok t) :
    t.Within g.names g.factSymbols :=
  foldlM_keeps (P := fun f => f.Within g.names g.factSymbols)
    (fun _ ho _ _ => addFirst_within ho) hf h

theorem firstFacts_within (h : g.firstFacts = .ok f) : f.Within g.names g.factSymbols :=
  saturate_keeps (fun _ _ => firstPass_within) (Facts.within_nil _ _) h

section Known

-- FIRST never looks at a head, so that the nonterminals of the bodies are all there is to know.
variable (hknown : ∀ p ∈ g.augmentedProductions, ∀ n, .nonterminal n ∈ p.body → n ∈ g.names)

include hknown

theorem exists_firstPass (hf : f.Within g.names g.factSymbols) :
    ∃ t, g.firstPass f = .ok t ∧ t.Within g.names g.factSymbols := by
  refine exists_foldlM ?_ hf
  intro o ho f hf
  obtain ⟨found, hfound⟩ := exists_firstOfString (hknown o.2 (mem_of_owned ho)) f
  have h : g.addFirst f o = .ok (f.addAll o.1 found) := by
    simp [addFirst, hfound, Except.map]
  exact ⟨_, h, addFirst_within ho hf h⟩

theorem exists_firstFacts : ∃ f, g.firstFacts = .ok f ∧ f.Within g.names g.factSymbols :=
  exists_saturate (fun _ hf => exists_firstPass hknown hf) (Facts.within_nil _ _)

end Known

/-- Another pass over the facts that saturation ends with adds nothing. -/
theorem firstFacts_owned (h : g.firstFacts = .ok f) (ho : o ∈ g.owned)
    (hs : f.Starts o.2.body s) : (o.1, s) ∈ f := by
  have hlength : f.length ≤ g.factCount := by
    rw [factCount_eq]
    exact (firstFacts_within h).length_le
  have hpass : g.firstPass f = .ok f :=
    saturate_fixed (fun _ _ => firstPass_grows) hlength h
  have hstep : g.addFirst f o = .ok f :=
    step_of_foldlM_self (fun _ _ _ _ => addFirst_grows) hpass ho
  obtain ⟨found, hfound, hf⟩ := addFirst_ok hstep
  rw [hf]
  exact Facts.mem_addAll.mpr (.inr ⟨s, (mem_firstOfString hfound).mpr hs, rfl⟩)

theorem firstFacts_closed (hg : g.Declared) (h : g.firstFacts = .ok f) : g.FirstClosed f :=
  fun _ hp _ hs => firstFacts_owned h (hg.owned hp) hs

/-- Derivations justify what the sets of the single symbols justify. -/
theorem FirstSound.first (hf : g.FirstSound f) (h : f.Starts form s) : g.First form s := by
  induction form generalizing s with
  | nil => exact .inl ⟨h, .refl _⟩
  | cons x rest ih =>
    have hset : ∀ t, t ∈ f.setOf x → x ≠ .epsilon → g.First [x] t := by
      intro t ht hx
      cases x with
      | nonterminal n => exact hf n t (Facts.mem_of.mp ht)
      | epsilon => exact absurd rfl hx
      | _ =>
        obtain rfl := List.mem_singleton.mp ht
        refine .inr ⟨by simp, rfl, [], ?_⟩
        rw [Form.visible_cons hx]
        exact .refl _
    by_cases hx : x = .epsilon
    · subst hx
      rcases h with ⟨h, hne⟩ | ⟨-, h⟩
      · exact absurd (List.mem_singleton.mp h) hne
      · simpa [First] using ih h
    · have split : Form.visible (x :: rest) = Form.visible [x] ++ Form.visible rest :=
        Form.visible_append [x] rest
      rcases h with ⟨h, hne⟩ | ⟨hepsilon, h⟩
      · rcases hset s h hx with ⟨rfl, -⟩ | ⟨-, hterminal, more, hmore⟩
        · exact absurd rfl hne
        · refine .inr ⟨hne, hterminal, more ++ Form.visible rest, ?_⟩
          rw [split]
          exact hmore.append_right _
      · rcases hset _ hepsilon hx with ⟨-, hvanish⟩ | ⟨hne, -⟩
        · have hrest : g.Derives (Form.visible (x :: rest)) (Form.visible rest) := by
            rw [split]
            exact hvanish.append_right _
          rcases ih h with ⟨hs, hder⟩ | ⟨hs, hterminal, more, hder⟩
          · exact .inl ⟨hs, hrest.trans hder⟩
          · exact .inr ⟨hs, hterminal, more, hrest.trans hder⟩
        · exact absurd rfl hne

theorem First.head (hp : p ∈ g.augmentedProductions) (h : g.First p.body s) :
    g.First [.nonterminal p.head] s := by
  have hvisible : Form.visible [.nonterminal p.head] = [.nonterminal p.head] := rfl
  rcases h with ⟨hs, hder⟩ | ⟨hs, hterminal, more, hder⟩
  · exact .inl ⟨hs, hvisible ▸ (derives_of_mem hp).trans hder⟩
  · exact .inr ⟨hs, hterminal, more, hvisible ▸ (derives_of_mem hp).trans hder⟩

theorem addFirst_sound (hg : g.Declared) (ho : o ∈ g.owned) (hf : g.FirstSound f)
    (h : g.addFirst f o = .ok t) : g.FirstSound t := by
  obtain ⟨found, hfound, rfl⟩ := addFirst_ok h
  intro n s hns
  rcases Facts.mem_addAll.mp hns with hns | ⟨u, hu, heq⟩
  · exact hf n s hns
  · cases heq
    rw [← hg.head_eq o ho]
    exact First.head (mem_of_owned ho) (hf.first ((mem_firstOfString hfound).mp hu))

theorem firstFacts_sound (hg : g.Declared) (h : g.firstFacts = .ok f) : g.FirstSound f := by
  refine saturate_keeps (P := g.FirstSound) ?_ ?_ h
  · intro f t hf hpass
    exact foldlM_keeps (P := g.FirstSound) (fun o ho f t hf => addFirst_sound hg ho hf) hf hpass
  · intro n s hns
    simp at hns

/-- What starts a form after a step starts it before. -/
theorem FirstClosed.starts_of_produces (hf : g.FirstClosed f) {a b : Form} (h : g.Produces a b)
    (hs : f.Starts b s) : f.Starts a s := by
  cases h with | @step p left right hp
  rw [List.append_assoc] at hs
  have hbody : ∀ u, f.Starts p.reducedBody u → f.Starts [.nonterminal p.head] u :=
    fun u hu => Facts.starts_singleton.mpr (hf p hp u (Facts.starts_visible.mp hu))
  have hcons : .nonterminal p.head :: right = [.nonterminal p.head] ++ right := rfl
  rw [hcons]
  simp only [Facts.starts_append] at hs ⊢
  grind

theorem FirstClosed.starts (hf : g.FirstClosed f) (h : g.First form s) : f.Starts form s := by
  rw [← Facts.starts_visible]
  rcases h with ⟨rfl, hder⟩ | ⟨hs, hterminal, more, hder⟩
  · exact hder.head_induction (motive := fun a => f.Starts a .epsilon) rfl
      fun a b hstep hb => hf.starts_of_produces hstep hb
  · refine hder.head_induction (motive := fun a => f.Starts a s) ?_
      fun a b hstep hb => hf.starts_of_produces hstep hb
    exact .inl ⟨(Facts.mem_setOf_terminal hterminal).mpr rfl, hs⟩

/-- The facts found by saturation tell FIRST of every form. -/
theorem starts_iff_first (hg : g.Declared) (h : g.firstFacts = .ok f) :
    f.Starts form s ↔ g.First form s :=
  ⟨(firstFacts_sound hg h).first, (firstFacts_closed hg h).starts⟩

end Grammar

end ShiftReduce
