import Mathlib.Logic.Relation
import ShiftReduce.Proofs.Rounds

/-!
What the closure of a list of items holds.

Of equal items the first is kept, and only that one is looked at. So the closure holds nothing but
what the given items lead to, one after another, and everything that an item it holds leads to. As
long as equal items lead to equal items these are all the items that can be reached. Equal items
lead to equal items where names tell the nonterminals apart: in the grammar of a mapping, and in any
other whose nonterminals all have different names.
-/

namespace ShiftReduce

section Fresh

variable {seen : List (Rule × Nat)} {items : List Item}

theorem fresh_eq_eraseDupsBy (seen : List (Rule × Nat)) (items : List Item) :
    fresh seen items =
      (items.filter fun i => i.core ∉ seen).eraseDupsBy fun i j => i.core == j.core := by
  induction items generalizing seen with
  | nil => rfl
  | cons i rest ih =>
    by_cases hi : i.core ∈ seen
    · rw [fresh, if_pos hi, ih, List.filter_cons_of_neg (by simpa using hi)]
    · rw [fresh, if_neg hi, ih, List.filter_cons_of_pos (by simpa using hi),
        List.eraseDupsBy_cons, List.filter_filter]
      congr 2
      apply List.filter_congr
      intro j _
      simp [not_or]

theorem fresh_eq_nil (h : ∀ i ∈ items, i.core ∈ seen) : fresh seen items = [] := by
  apply List.eq_nil_iff_forall_not_mem.mpr
  intro i hi
  obtain ⟨hmem, hcore⟩ := mem_of_mem_fresh hi
  exact hcore (h i hmem)

end Fresh

namespace Grammar

/-- An item that some items lead to, one after another. -/
def Reaches (g : Grammar) (items : List Item) (j : Item) : Prop :=
  ∃ i ∈ items, Relation.ReflTransGen (fun i j => j ∈ g.leadsTo i) i j

/-- Equal items that are reached from the list lead to equal items. -/
def Coherent (g : Grammar) (items : List Item) : Prop :=
  ∀ i j, g.Reaches items i → g.Reaches items j → i.core = j.core →
    (g.leadsTo i).map Item.core ⊆ (g.leadsTo j).map Item.core

variable {g : Grammar} {items more : List Item} {seen : List (Rule × Nat)} {queue : List Item}
  {i j : Item}

theorem Reaches.of_mem (h : i ∈ items) : g.Reaches items i :=
  ⟨i, h, .refl⟩

theorem Reaches.step (h : g.Reaches items i) (hj : j ∈ g.leadsTo i) : g.Reaches items j := by
  obtain ⟨first, hfirst, hpath⟩ := h
  exact ⟨first, hfirst, hpath.tail hj⟩

theorem reaches_append :
    g.Reaches (items ++ more) i ↔ g.Reaches items i ∨ g.Reaches more i := by
  simp only [Reaches, List.mem_append, or_and_right, exists_or]

theorem Coherent.mono (h : g.Coherent more) (hsub : items ⊆ more) : g.Coherent items := by
  have hreaches : ∀ {i}, g.Reaches items i → g.Reaches more i := by
    rintro i ⟨first, hfirst, hpath⟩
    exact ⟨first, hsub hfirst, hpath⟩
  exact fun i j hi hj => h i j (hreaches hi) (hreaches hj)

/-- A queue that leads to nothing new adds nothing. -/
theorem closeQueue_eq_nil (h : ∀ i ∈ queue, ∀ j ∈ g.leadsTo i, j.core ∈ seen) :
    g.closeQueue seen queue = [] := by
  fun_induction closeQueue g seen queue with
  | case1 seen => rfl
  | case2 seen i queue new ih =>
    have hnew : new = [] := fresh_eq_nil (h i List.mem_cons_self)
    rw [hnew] at ih ⊢
    simp only [List.map_nil, List.nil_append, List.append_nil] at ih ⊢
    exact ih fun j hj => h j (List.mem_cons_of_mem _ hj)

end Grammar

namespace ItemSet

open Grammar

variable {g : Grammar} {s : ItemSet} {items more : List Item} {i j : Item} {c : Rule × Nat}

/-- Everything that an item of a closed set leads to is in the set. -/
theorem core_mem_close (hi : i ∈ (s.close g).items) (hj : j ∈ g.leadsTo i) :
    j.core ∈ (s.close g).cores := by
  rw [items_close] at hi
  rw [cores, items_close, List.map_append, List.mem_append]
  exact core_mem_closeQueue hi hj

theorem close_close (g : Grammar) (s : ItemSet) : (s.close g).close g = s.close g := by
  have hnothing : g.closeQueue (s.close g).cores (s.close g).items = [] :=
    closeQueue_eq_nil fun _ hi _ hj => core_mem_close hi hj
  rw [close, hnothing, List.append_nil]

theorem reaches_of_mem_close (hi : i ∈ ((ofItems items).close g).items) :
    g.Reaches items i := by
  have hgiven : ∀ i ∈ (ofItems items).items, g.Reaches items i := by
    intro i hi
    rw [items_ofItems] at hi
    exact .of_mem (mem_of_mem_fresh hi).1
  rw [items_close] at hi
  rcases List.mem_append.mp hi with hi | hi
  · exact hgiven i hi
  · exact closeQueue_keeps (P := g.Reaches items) (fun _ _ h hj => h.step hj) hgiven hi

/-- Every item that is reached is in the closure, as the item which is equal to it there leads
to the same. -/
theorem core_mem_close_of_reaches (hg : g.Coherent items) (h : g.Reaches items i) :
    i.core ∈ ((ofItems items).close g).cores := by
  obtain ⟨first, hfirst, hpath⟩ := h
  induction hpath with
  | refl =>
    have hcore := (core_mem_fresh [] hfirst).resolve_left (by simp)
    rw [cores, items_close, items_ofItems, List.map_append]
    exact List.mem_append_left _ hcore
  | @tail j k hpath hk ih =>
    obtain ⟨j', hj', hcore⟩ := List.mem_map.mp ih
    have hsub := hg j j' ⟨first, hfirst, hpath⟩ (reaches_of_mem_close hj') hcore.symm
    obtain ⟨k', hk', hcore'⟩ := List.mem_map.mp (hsub (List.mem_map_of_mem hk))
    rw [← hcore']
    exact core_mem_close hj' hk'

theorem mem_cores_close_iff (hg : g.Coherent items) :
    c ∈ ((ofItems items).close g).cores ↔ ∃ i, g.Reaches items i ∧ i.core = c := by
  constructor
  · intro hc
    obtain ⟨i, hi, rfl⟩ := List.mem_map.mp hc
    exact ⟨i, reaches_of_mem_close hi, rfl⟩
  · rintro ⟨i, hi, rfl⟩
    exact core_mem_close_of_reaches hg hi

theorem mem_cores_close_append (hg : g.Coherent (items ++ more)) :
    c ∈ ((ofItems (items ++ more)).close g).cores ↔
      c ∈ ((ofItems items).close g).cores ∨ c ∈ ((ofItems more).close g).cores := by
  rw [mem_cores_close_iff hg, mem_cores_close_iff (hg.mono (List.subset_append_left _ _)),
    mem_cores_close_iff (hg.mono (List.subset_append_right _ _))]
  simp only [reaches_append, or_and_right, exists_or]

/-- What the closure of a list of items is in any grammar. -/
structure IsClosureOf (g : Grammar) (items : List Item) (s : ItemSet) : Prop where
  /-- The kernel is the list without the items that are equal to an earlier one. -/
  kernel_eq : s.kernel = items.eraseDupsBy fun i j => i.core == j.core
  nodup : s.cores.Nodup
  reached : ∀ i ∈ s.items, g.Reaches items i
  closed : ∀ i ∈ s.items, ∀ j ∈ g.leadsTo i, j.core ∈ s.cores
  close_eq : s.close g = s

theorem isClosureOf_close (g : Grammar) (items : List Item) :
    ((ofItems items).close g).IsClosureOf g items where
  kernel_eq := by
    simp only [close, ofItems, fresh_eq_eraseDupsBy, List.not_mem_nil, not_false_eq_true,
      decide_true, List.filter_true]
  nodup := nodup_cores_close g (nodup_cores_ofItems items)
  reached _ hi := reaches_of_mem_close hi
  closed _ hi _ hj := core_mem_close hi hj
  close_eq := close_close g _

end ItemSet

namespace Grammar

variable {g : Grammar} {items : List Item} {i j : Item} {name : String} {p : Production}

/-- An item of a production that augments a grammar is of the one that augments this grammar. -/
def Admits (g : Grammar) (i : Item) : Prop :=
  i.production.origin = .augmented → i.production = g.startProduction

/-- An item of a production that augments the grammar, or that a nonterminal can lead to. -/
def Owns (g : Grammar) (i : Item) : Prop :=
  i.production = g.startProduction ∨ i.production ∈ g.expandable

/-- What the given items have and what leads to nothing else, all that is reached has. -/
theorem Reaches.keeps {P : Item → Prop} (hstep : ∀ i j, P i → j ∈ g.leadsTo i → P j)
    (h : ∀ i ∈ items, P i) (hi : g.Reaches items i) : P i := by
  obtain ⟨first, hfirst, hpath⟩ := hi
  induction hpath with
  | refl => exact h _ hfirst
  | tail _ hj ih => exact hstep _ _ ih hj

theorem expandable_of_mem_leadsTo (hj : j ∈ g.leadsTo i) : j.production ∈ g.expandable := by
  obtain ⟨p, hp, rfl⟩ := List.mem_map.mp hj
  exact g.expansion_subset i hp

/-- Equal items with a nonterminal after the dot have to lead to the same productions. -/
theorem coherent_of_expansion_eq (h : ∀ i j name, g.Reaches items i → g.Reaches items j →
    i.next? = some (.nonterminal name) → j.next? = some (.nonterminal name) →
      g.expansion i = g.expansion j) : g.Coherent items := by
  intro i j hi hj hcore
  have hnext := Item.next?_eq_of_core_eq hcore
  have heq : g.expansion i = g.expansion j := by
    cases hx : j.next? with
    | none => simp only [expansion, hnext, hx]
    | some x =>
      cases x with
      | nonterminal name => exact h i j name hi hj (hnext.trans hx) hx
      | _ => simp only [expansion, hnext, hx]
  rw [leadsTo, leadsTo, heq]
  exact List.Subset.refl _

/-- A nonterminal comes next in the production that augments the grammar only in the start item. -/
theorem name_eq_of_next? (hp : i.production = g.startProduction)
    (hx : i.next? = some (.nonterminal name)) : name = g.start.name := by
  obtain ⟨p, dot⟩ := i
  obtain rfl : p = g.startProduction := hp
  unfold Item.next? at hx
  split at hx
  · cases hx
  · match dot with
    | 0 => exact (Symbol.nonterminal.inj (Option.some.inj hx)).symm
    | 1 => cases hx
    | n + 2 => cases hx

namespace WellFormed

variable (wf : g.WellFormed)

include wf

theorem mem_productions_of_expandable (hp : p ∈ g.expandable) : p ∈ g.productions := by
  rw [expandable, wf.scope_eq] at hp
  rcases List.mem_append.mp hp with hp | hp
  · exact mem_productions.mpr ⟨g.start, List.mem_cons_self, hp⟩
  · exact hp

theorem admits_of_mem_leadsTo (hj : j ∈ g.leadsTo i) : g.Admits j := by
  obtain ⟨n, hn⟩ := wf.exists_origin
    (wf.mem_productions_of_expandable (expandable_of_mem_leadsTo hj))
  intro haugmented
  cases haugmented.symm.trans hn

/-- Of which production an item is makes no difference to what a name after its dot leads to. -/
theorem expansion_eq_of_next? (hi : g.Admits i) (hj : g.Admits j)
    (hix : i.next? = some (.nonterminal name)) (hjx : j.next? = some (.nonterminal name)) :
    g.expansion i = g.expansion j := by
  have hexpansion : ∀ k, g.Admits k → k.next? = some (.nonterminal name) → g.expansion k =
      (g.nonterminals.find? (·.name = name)).elim [] Nonterminal.productions := by
    intro k hk hkx
    simp only [expansion, hkx]
    split
    · rename_i haugmented
      rw [name_eq_of_next? (hk haugmented) hkx, wf.find?_name List.mem_cons_self]
      rfl
    · rw [wf.scope_eq, Scope.find?]
      cases g.nonterminals.find? (·.name = name) <;> rfl
  rw [hexpansion i hi hix, hexpansion j hj hjx]

theorem coherent (h : ∀ i ∈ items, g.Admits i) : g.Coherent items := by
  have hreached : ∀ {i}, g.Reaches items i → g.Admits i :=
    fun hi => hi.keeps (fun _ _ _ hj => wf.admits_of_mem_leadsTo hj) h
  exact coherent_of_expansion_eq fun i j name hi hj hix hjx =>
    wf.expansion_eq_of_next? (hreached hi) (hreached hj) hix hjx

end WellFormed

end Grammar

namespace DeclaredSource

variable {s : DeclaredSource} {i j : Item} {p : Production} {k : Fin s.count} {n : Nonterminal}

theorem exists_number {ks : List (Fin s.count)} {start : Nat} (hn : n ∈ s.numberAll start ks) :
    ∃ m k, n = s.number m k := by
  induction ks generalizing start with
  | nil => simp [numberAll] at hn
  | cons k rest ih =>
    rcases List.mem_cons.mp hn with rfl | hn
    · exact ⟨start, k, rfl⟩
    · exact ih hn

theorem exists_draft_of_number {m : Nat} (hp : p ∈ (s.number m k).productions) :
    ∃ number d, p = s.production number d := by
  obtain ⟨n, hn, rfl⟩ := List.mem_mapIdx.mp hp
  exact ⟨_, _, rfl⟩

/-- The productions that a reference leads to keep the places that they were given with. -/
theorem exists_draft_of_referent (hp : p ∈ (s.referent k).productions) :
    ∃ number d, p = s.production number d := by
  unfold referent at hp
  cases hfound : (s.members.zip (s.numberAll 1 s.members)).lookup k with
  | none =>
    rw [hfound] at hp
    obtain ⟨d, -, rfl⟩ := List.mem_map.mp hp
    exact ⟨_, d, rfl⟩
  | some n =>
    rw [hfound] at hp
    obtain ⟨m, k', rfl⟩ := exists_number (List.of_mem_zip (Dictionary.mem_of_get? hfound)).2
    exact exists_draft_of_number hp

theorem exists_draft (hp : p ∈ s.assemble.expandable) : ∃ number d, p = s.production number d := by
  rcases List.mem_append.mp hp with hp | hp
  · exact exists_draft_of_number hp
  · obtain ⟨n, hn, hp⟩ := List.mem_flatMap.mp hp
    obtain ⟨k, -, rfl⟩ := List.mem_map.mp hn
    exact exists_draft_of_referent hp

theorem referent_start (s : DeclaredSource) : s.referent s.start = s.assemble.start := by
  simp [referent, members, numberAll, assemble]

/-- A nonterminal after the dot leads to the productions of one that has its name. -/
theorem exists_referent {name : String} (hi : s.assemble.Owns i)
    (hx : i.next? = some (.nonterminal name)) :
    ∃ k, s.name k = name ∧ s.assemble.expansion i = (s.referent k).productions := by
  rcases hi with hi | hi
  · refine ⟨s.start, (Grammar.name_eq_of_next? hi hx).symm, ?_⟩
    have haugmented : i.production.origin = .augmented := by rw [hi]; rfl
    simp only [Grammar.expansion, hx, haugmented, if_true, referent_start]
  · obtain ⟨number, d, hd⟩ := exists_draft hi
    obtain ⟨p, dot⟩ := i
    obtain rfl : p = s.production number d := hd
    have hbody : (d.body.map (Reference.symbol s.name))[dot]? = some (.nonterminal name) := by
      unfold Item.next? at hx
      split at hx
      · cases hx
      · exact hx
    rw [List.getElem?_map, Option.map_eq_some_iff] at hbody
    obtain ⟨r, hr, hsymbol⟩ := hbody
    cases r with
    | other x hother =>
      obtain rfl : x = .nonterminal name := hsymbol
      cases hother
    | nonterminal k =>
      refine ⟨k, Symbol.nonterminal.inj hsymbol, ?_⟩
      have hplace : (⟨s.production number d, dot⟩ : Item).place? = some k := by
        simp [Item.place?, production, hr, Reference.place?]
      have hfound : s.assemble.scope.find? ⟨s.production number d, dot⟩ name =
          some (s.referent k) := by
        simp [assemble, Scope.find?, hplace]
      have hgiven : (s.production number d).origin ≠ .augmented := by simp [production]
      simp only [Grammar.expansion, hx, hgiven, if_false, hfound]

/-- Where all names differ, equal items of a grammar lead to equal items. -/
theorem coherent {items : List Item} (hnames : Function.Injective s.name)
    (h : ∀ i ∈ items, s.assemble.Owns i) : s.assemble.Coherent items := by
  have hreached : ∀ {i}, s.assemble.Reaches items i → s.assemble.Owns i :=
    fun hi => hi.keeps (fun _ _ _ hj => .inr (Grammar.expandable_of_mem_leadsTo hj)) h
  apply Grammar.coherent_of_expansion_eq
  intro i j name hi hj hix hjx
  obtain ⟨k, hk, hexpansion⟩ := exists_referent (hreached hi) hix
  obtain ⟨l, hl, hexpansion'⟩ := exists_referent (hreached hj) hjx
  obtain rfl : k = l := hnames (hk.trans hl.symm)
  rw [hexpansion, hexpansion']

theorem eq_assemble {g : Grammar} (h : s.load = .ok g) : s.assemble = g := by
  unfold load at h
  split at h
  · cases h
  · exact Except.ok.inj h

end DeclaredSource

/-- The closure of a list of items, in any grammar: the kernel is the list without repetitions, no
item occurs twice, what is held is reached and what it leads to is held, and closing once more
changes nothing. When equal items lead to equal items everything that is reached is held, and the
closure of two lists together is that of both. So it is in the grammar of a mapping, and for the
items of any other grammar that is made from nonterminals with different names. -/
theorem ItemSet.close_exact (g : Grammar) (items : List Item) :
    ((ofItems items).close g).IsClosureOf g items ∧
    (g.Coherent items → ∀ c, c ∈ ((ofItems items).close g).cores ↔
      ∃ i, g.Reaches items i ∧ i.core = c) ∧
    (∀ more, g.Coherent (items ++ more) → ∀ c, c ∈ ((ofItems (items ++ more)).close g).cores ↔
      c ∈ ((ofItems items).close g).cores ∨ c ∈ ((ofItems more).close g).cores) ∧
    (∀ d, (Source.written d).load = .ok g → (∀ i ∈ items, g.Admits i) → g.Coherent items) ∧
    ∀ s : DeclaredSource, s.load = .ok g → Function.Injective s.name →
      (∀ i ∈ items, g.Owns i) → g.Coherent items := by
  refine ⟨isClosureOf_close g items, fun hg _ => mem_cores_close_iff hg,
    fun _ hg _ => mem_cores_close_append hg, ?_, ?_⟩
  · exact fun d hd => (Source.load_wellFormed hd).coherent
  · intro s hs hnames h
    obtain rfl := DeclaredSource.eq_assemble hs
    exact DeclaredSource.coherent hnames h

/-- Left recursion, and two nonterminals that begin with each other, one of which can vanish. -/
def Source.entangled : Datum :=
  .mapping [(.text "S", .list [.text "S A", .text "epsilon"]),
    (.text "A", .list [.text "B a", .text "epsilon"]), (.text "B", .list [.text "A b"])]

/-- Two items of which one is given twice and leads to the other. -/
def Source.repeated : List Item :=
  [⟨⟨⟨"S", [.nonterminal "S", .nonterminal "A"]⟩, .numbered 1⟩, 1⟩,
    ⟨⟨⟨"A", [.nonterminal "B", .token "a"]⟩, .numbered 3⟩, 0⟩,
    ⟨⟨⟨"S", [.nonterminal "S", .nonterminal "A"]⟩, .numbered 1⟩, 1⟩]

set_option maxRecDepth 100000 in
theorem Source.entangled_closure : ∃ g, (written entangled).load = .ok g ∧
    ((ItemSet.ofItems repeated).close g).IsClosureOf g repeated ∧
    ((ItemSet.ofItems repeated).close g).kernel.length = 2 ∧
    ((ItemSet.ofItems repeated).close g).cores.length = 4 ∧
    ∀ c, c ∈ ((ItemSet.ofItems repeated).close g).cores ↔
      ∃ i, g.Reaches repeated i ∧ i.core = c := by
  have h : Except.passes (fun g => decide (((ItemSet.ofItems repeated).close g).kernel.length = 2 ∧
      ((ItemSet.ofItems repeated).close g).cores.length = 4)) (written entangled).load = true := by
    decide +kernel
  obtain ⟨g, hg, htest⟩ := Except.exists_of_passes h
  obtain ⟨hkernel, hcores⟩ := of_decide_eq_true htest
  obtain ⟨hclosure, hmem, -, hcoherent, -⟩ := ItemSet.close_exact g repeated
  have hgiven : ∀ i ∈ repeated, g.Admits i := by
    simp [repeated, Grammar.Admits]
  exact ⟨g, hg, hclosure, hkernel, hcores, hmem (hcoherent _ hg hgiven)⟩

/-- A nonterminal with the name and the alternative of the synthetic start symbol, in which the name
of the start symbol refers to another nonterminal. -/
def Source.shadowed : DeclaredSource where
  count := 3
  outlines := #v[⟨"A", [⟨"A", .token "x", []⟩]⟩, ⟨"A", [⟨"A", .token "y", []⟩]⟩,
    ⟨Symbol.startName, [⟨Symbol.startName, .nonterminal (place 0), [.other .endOfInput rfl]⟩]⟩]
  listed := [place 1, place 2]
  start := place 1
  tokens := [.token "x", .token "y"]

/-- The item of that alternative with the dot in front. -/
def Source.pretender : Item :=
  ⟨⟨⟨Symbol.startName, [.nonterminal "A", .endOfInput]⟩, .given (some 2) [some 0, none]⟩, 0⟩

/-- Two nonterminals of one name, of which one is listed, as alternatives of the start symbol. -/
def Source.twins : DeclaredSource where
  count := 3
  outlines := #v[⟨"X", [⟨"X", .nonterminal (place 1), []⟩, ⟨"X", .nonterminal (place 2), []⟩]⟩,
    ⟨"A", [⟨"A", .token "x", []⟩]⟩, ⟨"A", [⟨"A", .token "y", []⟩]⟩]
  listed := [place 0, place 1]
  start := place 0
  tokens := [.token "x", .token "y"]

/-- The items of the two alternatives with the dot in front. -/
def Source.elder : Item := ⟨⟨⟨"X", [.nonterminal "A"]⟩, .given (some 1) [some 1]⟩, 0⟩

def Source.younger : Item := ⟨⟨⟨"X", [.nonterminal "A"]⟩, .given (some 2) [some 2]⟩, 0⟩

/-- What the second of two items leads to is held by its closure alone, and not by that of both. -/
def Grammar.Overlooks (g : Grammar) (i j : Item) : Prop :=
  ∃ k ∈ g.leadsTo j, k.core ∉ ((ItemSet.ofItems [i, j]).close g).cores ∧
    k.core ∈ ((ItemSet.ofItems [j]).close g).cores

instance (g : Grammar) (i j : Item) : Decidable (g.Overlooks i j) :=
  inferInstanceAs (Decidable (∃ k ∈ g.leadsTo j,
    k.core ∉ ((ItemSet.ofItems [i, j]).close g).cores ∧
      k.core ∈ ((ItemSet.ofItems [j]).close g).cores))

/-- Then the closure is not all that is reached, and not that of each item taken together. -/
theorem Grammar.Overlooks.not_exact {g : Grammar} {i j : Item} (h : g.Overlooks i j) :
    (¬ ∀ c, c ∈ ((ItemSet.ofItems [i, j]).close g).cores ↔
      ∃ k, g.Reaches [i, j] k ∧ k.core = c) ∧
    ¬ ∀ c, c ∈ ((ItemSet.ofItems ([i] ++ [j])).close g).cores ↔
      c ∈ ((ItemSet.ofItems [i]).close g).cores ∨ c ∈ ((ItemSet.ofItems [j]).close g).cores := by
  obtain ⟨k, hk, hmissing, hheld⟩ := h
  have hreached : g.Reaches [i, j] k := (Reaches.of_mem (by simp)).step hk
  refine ⟨fun hall => ?_, fun hall => ?_⟩
  · exact hmissing ((hall k.core).mpr ⟨k, hreached, rfl⟩)
  · exact hmissing ((hall k.core).mpr (.inr hheld))

set_option maxRecDepth 100000 in
/-- Beside the start item, which equals it, an item is not looked at: what it leads to is missing in
the closure of both, though it is in that of the item alone. So it is with the items of equal
alternatives in which a name refers to different nonterminals. -/
theorem Source.shadowed_closure :
    (∃ g, shadowed.load = .ok g ∧ pretender.production ∈ g.productions ∧
      (¬ ∀ c, c ∈ ((ItemSet.ofItems [g.startItem, pretender]).close g).cores ↔
        ∃ i, g.Reaches [g.startItem, pretender] i ∧ i.core = c) ∧
      ¬ ∀ c, c ∈ ((ItemSet.ofItems ([g.startItem] ++ [pretender])).close g).cores ↔
        c ∈ ((ItemSet.ofItems [g.startItem]).close g).cores ∨
          c ∈ ((ItemSet.ofItems [pretender]).close g).cores) ∧
    ∃ g, twins.load = .ok g ∧ elder.production ∈ g.productions ∧
      younger.production ∈ g.productions ∧
      (¬ ∀ c, c ∈ ((ItemSet.ofItems [elder, younger]).close g).cores ↔
        ∃ i, g.Reaches [elder, younger] i ∧ i.core = c) ∧
      ¬ ∀ c, c ∈ ((ItemSet.ofItems ([elder] ++ [younger])).close g).cores ↔
        c ∈ ((ItemSet.ofItems [elder]).close g).cores ∨
          c ∈ ((ItemSet.ofItems [younger]).close g).cores := by
  constructor
  · have h : Except.passes (fun g => decide (pretender.production ∈ g.productions ∧
        g.Overlooks g.startItem pretender)) shadowed.load = true := by
      decide +kernel
    obtain ⟨g, hg, htest⟩ := Except.exists_of_passes h
    obtain ⟨hp, hoverlooks⟩ := of_decide_eq_true htest
    exact ⟨g, hg, hp, hoverlooks.not_exact⟩
  · have h : Except.passes (fun g => decide (elder.production ∈ g.productions ∧
        younger.production ∈ g.productions ∧ g.Overlooks elder younger)) twins.load = true := by
      decide +kernel
    obtain ⟨g, hg, htest⟩ := Except.exists_of_passes h
    obtain ⟨helder, hyounger, hoverlooks⟩ := of_decide_eq_true htest
    exact ⟨g, hg, helder, hyounger, hoverlooks.not_exact⟩

end ShiftReduce
