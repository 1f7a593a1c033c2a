import Mathlib.Logic.Relation
import ShiftReduce.Derivation

/-!
Derivations step by step and as trees.

`Yields` cuts a form into its symbols: a terminal yields itself, a nonterminal what the body of one
of its productions yields. The productions are listed in the order in which the bodies are
complete, which is that of a rightmost derivation reversed.
-/

namespace ShiftReduce

theorem Form.IsTerminal.append {a b : Form} (ha : a.IsTerminal) (hb : b.IsTerminal) :
    Form.IsTerminal (a ++ b) := by
  intro s hs
  rcases List.mem_append.mp hs with hs | hs
  · exact ha s hs
  · exact hb s hs

theorem Form.isTerminal_tokens (names : List String) :
    Form.IsTerminal (names.map Symbol.token) := by
  simp [Form.IsTerminal, Symbol.isNonterminal]

namespace Grammar

variable {g : Grammar} {a b c d : Form}

theorem derives_iff_reflTransGen : g.Derives a b ↔ Relation.ReflTransGen g.Produces a b := by
  constructor
  · intro h
    induction h with
    | refl => exact .refl
    | tail _ hstep ih => exact .tail ih hstep
  · intro h
    induction h with
    | refl => exact .refl _
    | tail _ hstep ih => exact .tail ih hstep

theorem Produces.derives (h : g.Produces a b) : g.Derives a b := .tail (.refl a) h

theorem derives_of_mem {p : Production} (hp : p ∈ g.augmentedProductions) :
    g.Derives [.nonterminal p.head] p.reducedBody := by
  simpa using (Produces.step [] [] hp).derives

/-- Induction on a derivation from its first step. -/
theorem Derives.head_induction {motive : Form → Prop} (h : g.Derives a c) (last : motive c)
    (step : ∀ a b, g.Produces a b → motive b → motive a) : motive a := by
  rw [derives_iff_reflTransGen] at h
  induction h using Relation.ReflTransGen.head_induction_on with
  | refl => exact last
  | head hstep _ ih => exact step _ _ hstep ih

theorem Derives.append_left (h : g.Derives a b) (left : Form) :
    g.Derives (left ++ a) (left ++ b) := by
  simpa using h.append left []

theorem Derives.append_right (h : g.Derives a b) (right : Form) :
    g.Derives (a ++ right) (b ++ right) := by
  simpa using h.append [] right

theorem Derives.append_append (hab : g.Derives a b) (hcd : g.Derives c d) :
    g.Derives (a ++ c) (b ++ d) :=
  (hab.append_right c).trans (hcd.append_left b)

/-- What holds of the symbols of a form and of all bodies holds in every form derived from it. -/
theorem Derives.forall_mem {P : Symbol → Prop} (h : g.Derives a b) (ha : ∀ s ∈ a, P s)
    (hbody : ∀ p ∈ g.augmentedProductions, ∀ s ∈ p.reducedBody, P s) : ∀ s ∈ b, P s := by
  induction h with
  | refl => exact ha
  | tail _ hstep ih =>
    cases hstep with | @step p left right hp
    intro s hs
    simp only [List.mem_append] at hs
    rcases hs with (hs | hs) | hs
    · exact ih s (by simp [hs])
    · exact hbody p hp s hs
    · exact ih s (by simp [hs])

theorem RightmostDerives.append_left {ps : List Production} (h : g.RightmostDerives ps a b)
    (left : Form) : g.RightmostDerives ps (left ++ a) (left ++ b) := by
  induction h with
  | refl => exact .refl _
  | step hp hright _ ih =>
    rw [← List.append_assoc] at ih ⊢
    exact .step hp hright (by simpa using ih)

theorem RightmostDerives.append_right {ps : List Production} (h : g.RightmostDerives ps a b)
    {right : Form} (hright : Form.IsTerminal right) :
    g.RightmostDerives ps (a ++ right) (b ++ right) := by
  induction h with
  | refl => exact .refl _
  | step hp hterminal _ ih =>
    rw [List.append_assoc, List.cons_append]
    exact .step hp (hterminal.append hright) (by simpa using ih)

theorem RightmostDerives.trans {ps qs : List Production} (hab : g.RightmostDerives ps a b)
    (hbc : g.RightmostDerives qs b c) : g.RightmostDerives (ps ++ qs) a c := by
  induction hab with
  | refl => exact hbc
  | step hp hright _ ih => exact .step hp hright (ih hbc)

/-- Induction on a rightmost derivation from its last step. -/
theorem RightmostDerives.tail_induction {motive : Form → Prop} {ps : List Production}
    (h : g.RightmostDerives ps a b) (first : motive a)
    (step : ∀ p left right, p ∈ g.augmentedProductions → Form.IsTerminal right →
      (∃ qs, g.RightmostDerives qs a (left ++ .nonterminal p.head :: right)) →
      motive (left ++ .nonterminal p.head :: right) → motive (left ++ p.reducedBody ++ right)) :
    motive b := by
  suffices hall : ∀ {rs c d}, g.RightmostDerives rs c d → (∃ qs, g.RightmostDerives qs a c) →
      motive c → motive d from
    hall h ⟨[], .refl a⟩ first
  intro rs c d hcd
  induction hcd with
  | refl => exact fun _ hc => hc
  | step hp hright _ ih =>
    rintro ⟨qs, hqs⟩ hc
    refine ih ⟨_, hqs.trans (.step hp hright (.refl _))⟩ ?_
    exact step _ _ _ hp hright ⟨qs, hqs⟩ hc

/-- A form with the terminal string under it and the productions used, each after those used within
its body. -/
inductive Yields (g : Grammar) : Form → List Production → Form → Prop where
  | nil : Yields g [] [] []
  | terminal {s : Symbol} {form word : Form} {ps : List Production} :
      s.isNonterminal = false → Yields g form ps word → Yields g (s :: form) ps (s :: word)
  | node {p : Production} {form u v : Form} {ps qs : List Production} :
      p ∈ g.augmentedProductions → Yields g p.reducedBody ps u → Yields g form qs v →
      Yields g (.nonterminal p.head :: form) (ps ++ p :: qs) (u ++ v)

namespace Yields

variable {ps qs : List Production} {form word u v : Form}

theorem of_isTerminal (h : Form.IsTerminal form) : g.Yields form [] form := by
  induction form with
  | nil => exact .nil
  | cons s rest ih =>
    exact .terminal (h s List.mem_cons_self) (ih fun t ht => h t (List.mem_cons_of_mem _ ht))

theorem eq_of_isTerminal (h : g.Yields form ps word) (hform : Form.IsTerminal form) :
    ps = [] ∧ word = form := by
  induction h with
  | nil => exact ⟨rfl, rfl⟩
  | terminal _ _ ih =>
    obtain ⟨rfl, rfl⟩ := ih fun t ht => hform t (List.mem_cons_of_mem _ ht)
    exact ⟨rfl, rfl⟩
  | node =>
    have := hform _ List.mem_cons_self
    simp [Symbol.isNonterminal] at this

theorem append (hu : g.Yields a ps u) (hv : g.Yields b qs v) :
    g.Yields (a ++ b) (ps ++ qs) (u ++ v) := by
  induction hu with
  | nil => exact hv
  | terminal hs _ ih => exact .terminal hs ih
  | node hp hbody _ _ ih =>
    rw [List.append_assoc, List.append_assoc]
    exact .node hp hbody ih

theorem split (h : g.Yields (a ++ b) ps word) : ∃ ps₁ ps₂ u v,
    ps = ps₁ ++ ps₂ ∧ word = u ++ v ∧ g.Yields a ps₁ u ∧ g.Yields b ps₂ v := by
  induction a generalizing ps word with
  | nil => exact ⟨[], ps, [], word, rfl, rfl, .nil, h⟩
  | cons s rest ih =>
    cases h with
    | terminal hs h =>
      obtain ⟨ps₁, ps₂, u, v, rfl, rfl, hu, hv⟩ := ih h
      exact ⟨ps₁, ps₂, s :: u, v, rfl, rfl, .terminal hs hu, hv⟩
    | @node p _ x _ qs _ hp hbody h =>
      obtain ⟨ps₁, ps₂, u, v, rfl, rfl, hu, hv⟩ := ih h
      exact ⟨qs ++ p :: ps₁, ps₂, x ++ u, v, by simp, by simp, .node hp hbody hu, hv⟩

/-- A nonterminal yields what the body of a production yields in its place; its production comes
last when only terminals follow. -/
theorem fold {p : Production} {left right : Form} (hp : p ∈ g.augmentedProductions)
    (h : g.Yields (left ++ p.reducedBody ++ right) ps word) : ∃ ps₁ ps₂, ps = ps₁ ++ ps₂ ∧
      g.Yields (left ++ .nonterminal p.head :: right) (ps₁ ++ p :: ps₂) word ∧
      (Form.IsTerminal right → ps₂ = []) := by
  obtain ⟨qs, rs, u, v, rfl, rfl, hu, hv⟩ := h.split
  obtain ⟨qs₁, qs₂, u₁, u₂, rfl, rfl, hleft, hbody⟩ := hu.split
  refine ⟨qs₁ ++ qs₂, rs, rfl, ?_, fun hright => (hv.eq_of_isTerminal hright).1⟩
  simpa using hleft.append (.node hp hbody hv)

/-- Read backwards, a rightmost derivation completes the bodies one after the other. -/
theorem of_rightmostDerives (h : g.RightmostDerives ps form word) (hword : Form.IsTerminal word) :
    g.Yields form ps.reverse word := by
  induction h with
  | refl => exact of_isTerminal hword
  | @step p ps left right word hp hright _ ih =>
    obtain ⟨ps₁, ps₂, hps, hyields, hnil⟩ := (ih hword).fold hp
    rw [hnil hright] at hps hyields
    rwa [List.reverse_cons, hps, List.append_nil]

theorem exists_of_derives (h : g.Derives form word) (hword : Form.IsTerminal word) :
    ∃ ps, g.Yields form ps word := by
  apply h.head_induction
  · exact ⟨[], of_isTerminal hword⟩
  · rintro a b ⟨left, right, hp⟩ ⟨ps, hyields⟩
    obtain ⟨ps₁, ps₂, -, hfold, -⟩ := hyields.fold hp
    exact ⟨_, hfold⟩

theorem derives (h : g.Yields form ps word) : g.Derives form word := by
  induction h with
  | nil => exact .refl _
  | @terminal s _ _ _ _ _ ih => exact ih.append_left [s]
  | node hp _ _ hbody hrest =>
    exact ((derives_of_mem hp).trans hbody).append_append hrest

theorem isTerminal (h : g.Yields form ps word) : Form.IsTerminal word := by
  induction h with
  | nil =>
    intro s hs
    simp at hs
  | terminal hs _ ih =>
    intro t ht
    rcases List.mem_cons.mp ht with rfl | ht
    · exact hs
    · exact ih t ht
  | node _ _ _ hu hv => exact hu.append hv

/-- Completing the bodies one after the other is a rightmost derivation read backwards. -/
theorem rightmostDerives (h : g.Yields form ps word) :
    g.RightmostDerives ps.reverse form word := by
  induction h with
  | nil => exact .refl _
  | @terminal s _ _ _ _ _ ih => exact ih.append_left [s]
  | @node p form u v ps qs hp _ hform ihbody ihform =>
    have hrest := ihform.append_left [.nonterminal p.head]
    have hnode : g.RightmostDerives (p :: ps.reverse) ([] ++ .nonterminal p.head :: v) (u ++ v) :=
      .step hp hform.isTerminal (ihbody.append_right hform.isTerminal)
    simpa using hrest.trans hnode

end Yields

end Grammar

end ShiftReduce
