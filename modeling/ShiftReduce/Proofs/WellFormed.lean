import Mathlib.Data.List.Nodup
import ShiftReduce.Grammar

/-!
Grammars in which every symbol is what its name says.

A body is epsilon alone or a list of declared nonterminals and tokens, the names of the declared
nonterminals differ, and the productions are numbered through from 1. In such a grammar a rule
determines its production, a nonterminal in a body leads to the productions of that head, and no
body mentions the synthetic start symbol or the end of input.
-/

namespace ShiftReduce

namespace Symbol

@[simp] theorem ofName_epsilonName : ofName epsilonName = epsilon := by
  simp [ofName]

@[simp] theorem ofName_endOfInputName : ofName endOfInputName = endOfInput := by
  decide

@[simp] theorem ofName_startName : ofName startName = token startName := by
  decide

/-- The symbols that may stand in a body next to others, given the declared nonterminals. -/
def Occurs (heads : List String) : Symbol → Prop
  | nonterminal n => n ∈ heads ∧ ofName n = nonterminal n
  | token n => ofName n = token n ∧ n ≠ startName
  | _ => False

variable {heads : List String} {s : Symbol}

theorem Occurs.ofName_name (h : s.Occurs heads) : ofName s.name = s := by
  cases s with
  | nonterminal n => exact h.2
  | token n => exact h.1
  | plain n => exact h.elim
  | epsilon => exact h.elim
  | endOfInput => exact h.elim

theorem Occurs.ne_epsilon (h : s.Occurs heads) : s ≠ epsilon := by
  rintro rfl
  exact h

theorem Occurs.ne_endOfInput (h : s.Occurs heads) : s ≠ endOfInput := by
  rintro rfl
  exact h

theorem Occurs.name_ne_startName (h : s.Occurs heads) : s.name ≠ startName := by
  cases s with
  | nonterminal n =>
    rintro rfl
    simpa using h.2
  | token n => exact h.2
  | _ => exact h.elim

end Symbol

/-- Epsilon alone, or symbols that may stand next to others. -/
def IsBody (heads : List String) (body : List Symbol) : Prop :=
  body = [.epsilon] ∨ body ≠ [] ∧ ∀ s ∈ body, s.Occurs heads

namespace Rule

variable {heads : List String} {r : Rule} {s : Symbol}

theorem ne_epsilon_of_mem_reducedBody (h : s ∈ r.reducedBody) : s ≠ .epsilon := by
  simpa using (List.mem_filter.mp h).2

theorem mem_body_of_mem_reducedBody (h : s ∈ r.reducedBody) : s ∈ r.body :=
  (List.mem_filter.mp h).1

theorem reducedBody_eq_body (h : .epsilon ∉ r.body) : r.reducedBody = r.body := by
  apply List.filter_eq_self.mpr
  intro s hs
  have : s ≠ .epsilon := fun e => h (e ▸ hs)
  simpa using this

theorem reducedBody_of_isEpsilon (h : r.isEpsilon = true) : r.reducedBody = [] := by
  have hbody : r.body = [.epsilon] := by simpa [isEpsilon] using h
  simp [reducedBody, hbody]

end Rule

theorem IsBody.epsilon_not_mem {heads : List String} {r : Rule} (h : IsBody heads r.body)
    (hr : r.isEpsilon = false) : .epsilon ∉ r.body := by
  rcases h with h | ⟨-, h⟩
  · simp [Rule.isEpsilon, h] at hr
  · exact fun he => (h _ he).ne_epsilon rfl

theorem IsBody.occurs {heads : List String} {r : Rule} {s : Symbol} (h : IsBody heads r.body)
    (hs : s ∈ r.reducedBody) : s.Occurs heads := by
  rcases h with h | ⟨-, h⟩
  · simp [Rule.reducedBody, h] at hs
  · exact h s (Rule.mem_body_of_mem_reducedBody hs)

/-- The only element that passes a test is the one that is found. -/
theorem find?_eq_some_of_unique {α : Type} {l : List α} {p : α → Bool} {a : α} (ha : a ∈ l)
    (hp : p a = true) (unique : ∀ b ∈ l, p b = true → b = a) : l.find? p = some a := by
  cases hf : l.find? p with
  | none => exact absurd hp (List.find?_eq_none.mp hf a ha)
  | some b => rw [unique b (List.mem_of_find?_eq_some hf) (List.find?_some hf)]

namespace Grammar

/-- The names of the nonterminals, without that of the synthetic start symbol. -/
def heads (g : Grammar) : List String := g.nonterminals.map Nonterminal.name

structure WellFormed (g : Grammar) : Prop where
  scope_eq : g.scope = .named g.nonterminals
  heads_nodup : g.heads.Nodup
  ofName_name : ∀ n ∈ g.nonterminals, Symbol.ofName n.name = .nonterminal n.name
  head_eq : ∀ n ∈ g.nonterminals, ∀ p ∈ n.productions, p.head = n.name
  bodies_nodup : ∀ n ∈ g.nonterminals, (n.productions.map fun p => p.body).Nodup
  productions_ne_nil : ∀ n ∈ g.nonterminals, n.productions ≠ []
  isBody : ∀ p ∈ g.productions, IsBody g.heads p.body
  numbered : g.productions.map Production.origin =
    (List.range' 1 g.productions.length).map .numbered

variable {g : Grammar} {p q : Production} {name : String}

theorem names_eq (g : Grammar) : g.names = Symbol.startName :: g.heads := rfl

theorem mem_productions : p ∈ g.productions ↔ ∃ n ∈ g.nonterminals, p ∈ n.productions := by
  simp [productions]

theorem mem_augmentedProductions :
    p ∈ g.augmentedProductions ↔ p = g.startProduction ∨ p ∈ g.productions := by
  simp [augmentedProductions]

theorem start_mem_heads (g : Grammar) : g.start.name ∈ g.heads :=
  List.mem_map_of_mem List.mem_cons_self

@[simp] theorem reducedBody_startProduction (g : Grammar) :
    g.startProduction.reducedBody = [.nonterminal g.start.name, .endOfInput] := by
  rfl

namespace WellFormed

variable (wf : g.WellFormed)

include wf

theorem ofName_of_mem_heads (h : name ∈ g.heads) :
    Symbol.ofName name = .nonterminal name := by
  obtain ⟨n, hn, rfl⟩ := List.mem_map.mp h
  exact wf.ofName_name n hn

theorem startName_not_mem_heads : Symbol.startName ∉ g.heads := by
  intro h
  have := wf.ofName_of_mem_heads h
  simp at this

theorem head_mem_heads (hp : p ∈ g.productions) : p.head ∈ g.heads := by
  obtain ⟨n, hn, hp⟩ := mem_productions.mp hp
  rw [wf.head_eq n hn p hp]
  exact List.mem_map_of_mem hn

theorem head_ne_startName (hp : p ∈ g.productions) : p.head ≠ Symbol.startName :=
  fun h => wf.startName_not_mem_heads (h ▸ wf.head_mem_heads hp)

theorem eq_startProduction_of_head (hp : p ∈ g.augmentedProductions)
    (h : p.head = Symbol.startName) : p = g.startProduction := by
  rcases mem_augmentedProductions.mp hp with hp | hp
  · exact hp
  · exact absurd h (wf.head_ne_startName hp)

theorem mem_productions_of_head (hp : p ∈ g.augmentedProductions) (h : p.head ∈ g.heads) :
    p ∈ g.productions := by
  rcases mem_augmentedProductions.mp hp with rfl | hp
  · exact absurd h wf.startName_not_mem_heads
  · exact hp

theorem head_mem_names (hp : p ∈ g.augmentedProductions) : p.head ∈ g.names := by
  rw [names_eq]
  rcases mem_augmentedProductions.mp hp with rfl | hp
  · exact List.mem_cons_self
  · exact List.mem_cons_of_mem _ (wf.head_mem_heads hp)

/-- Two nonterminals of one name are the same. -/
theorem eq_of_name_eq {m n : Nonterminal} (hm : m ∈ g.nonterminals) (hn : n ∈ g.nonterminals)
    (h : m.name = n.name) : m = n :=
  List.inj_on_of_nodup_map wf.heads_nodup hm hn h

theorem find?_name {n : Nonterminal} (hn : n ∈ g.nonterminals) :
    g.nonterminals.find? (·.name = n.name) = some n := by
  apply find?_eq_some_of_unique hn (by simp)
  intro m hm hname
  exact wf.eq_of_name_eq hm hn (by simpa using hname)

/-- The productions of a nonterminal are those that have it as their head. -/
theorem mem_productions_of_mem {n : Nonterminal} (hn : n ∈ g.nonterminals) :
    p ∈ n.productions ↔ p ∈ g.productions ∧ p.head = n.name := by
  constructor
  · exact fun hp => ⟨mem_productions.mpr ⟨n, hn, hp⟩, wf.head_eq n hn p hp⟩
  · rintro ⟨hp, hhead⟩
    obtain ⟨m, hm, hp⟩ := mem_productions.mp hp
    rwa [← wf.eq_of_name_eq hm hn ((wf.head_eq m hm p hp).symm.trans hhead)]

/-- A head and a body determine the production. -/
theorem eq_of_toRule_eq (hp : p ∈ g.augmentedProductions) (hq : q ∈ g.augmentedProductions)
    (h : p.toRule = q.toRule) : p = q := by
  have hhead : p.head = q.head := congrArg Rule.head h
  rcases mem_augmentedProductions.mp hp with rfl | hp <;>
    rcases mem_augmentedProductions.mp hq with rfl | hq
  · rfl
  · exact absurd hhead.symm (wf.head_ne_startName hq)
  · exact absurd hhead (wf.head_ne_startName hp)
  · obtain ⟨m, hm, hp⟩ := mem_productions.mp hp
    obtain ⟨n, hn, hq⟩ := mem_productions.mp hq
    have hmn : m = n := by
      apply wf.eq_of_name_eq hm hn
      rw [← wf.head_eq m hm p hp, ← wf.head_eq n hn q hq, hhead]
    subst hmn
    exact List.inj_on_of_nodup_map (wf.bodies_nodup m hm) hp hq (congrArg Rule.body h)

theorem origin_getElem {k : Nat} (hk : k < g.productions.length) :
    g.productions[k].origin = .numbered (1 + k) := by
  have h := congrArg (fun l => l[k]?) wf.numbered
  simpa [hk] using h

theorem number?_getElem {k : Nat} (hk : k < g.productions.length) :
    g.productions[k].number? = some (1 + k) := by
  simp [Production.number?, wf.origin_getElem hk]

theorem map_number? : g.productions.map Production.number? =
    (List.range' 1 g.productions.length).map some := by
  apply List.ext_getElem (by simp)
  intro k hk _
  have hlt : k < g.productions.length := by simpa using hk
  simp [wf.number?_getElem hlt]

theorem exists_origin (hp : p ∈ g.productions) : ∃ n, p.origin = .numbered n := by
  obtain ⟨k, hk, rfl⟩ := List.getElem_of_mem hp
  exact ⟨_, wf.origin_getElem hk⟩

theorem exists_number (hp : p ∈ g.productions) : ∃ n, p.number? = some n := by
  obtain ⟨n, hn⟩ := wf.exists_origin hp
  exact ⟨n, by simp [Production.number?, hn]⟩

/-- Two productions of one number are the same. -/
theorem eq_of_number?_eq (hp : p ∈ g.productions) (hq : q ∈ g.productions)
    (h : p.number? = q.number?) : p = q := by
  obtain ⟨k, hk, rfl⟩ := List.getElem_of_mem hp
  obtain ⟨l, hl, rfl⟩ := List.getElem_of_mem hq
  rw [wf.number?_getElem hk, wf.number?_getElem hl] at h
  have hkl : k = l := by simpa using h
  subst hkl
  rfl

/-- A production is an epsilon production, or epsilon is not in its body. -/
theorem epsilon_not_mem_body (hp : p ∈ g.augmentedProductions) (h : p.isEpsilon = false) :
    .epsilon ∉ p.body := by
  rcases mem_augmentedProductions.mp hp with rfl | hp
  · simp [startProduction, Nonterminal.symbol]
  · exact (wf.isBody p hp).epsilon_not_mem h

theorem reducedBody_eq_body (hp : p ∈ g.augmentedProductions) (h : p.isEpsilon = false) :
    p.reducedBody = p.body :=
  Rule.reducedBody_eq_body (wf.epsilon_not_mem_body hp h)

/-- What stands in a body is a declared nonterminal, a token, or the end of input after the start
symbol. -/
theorem mem_reducedBody {s : Symbol} (hp : p ∈ g.augmentedProductions) (hs : s ∈ p.reducedBody) :
    s.Occurs g.heads ∨ s = .endOfInput ∧ p = g.startProduction := by
  rcases mem_augmentedProductions.mp hp with rfl | hp
  · rw [reducedBody_startProduction] at hs
    simp only [List.mem_cons, List.not_mem_nil, or_false] at hs
    rcases hs with rfl | rfl
    · exact .inl ⟨g.start_mem_heads, wf.ofName_of_mem_heads g.start_mem_heads⟩
    · exact .inr ⟨rfl, rfl⟩
  · exact .inl ((wf.isBody p hp).occurs hs)

theorem ofName_name_of_mem_reducedBody {s : Symbol} (hp : p ∈ g.augmentedProductions)
    (hs : s ∈ p.reducedBody) : Symbol.ofName s.name = s := by
  rcases wf.mem_reducedBody hp hs with h | ⟨rfl, -⟩
  · exact h.ofName_name
  · exact Symbol.ofName_endOfInputName

theorem mem_heads_of_mem_body (hp : p ∈ g.augmentedProductions)
    (h : .nonterminal name ∈ p.body) : name ∈ g.heads := by
  have hs : .nonterminal name ∈ p.reducedBody := List.mem_filter.mpr ⟨h, by simp⟩
  rcases wf.mem_reducedBody hp hs with h | ⟨h, -⟩
  · exact h.1
  · simp at h

end WellFormed

end Grammar

end ShiftReduce
