import ShiftReduce.Proofs.Cells
import ShiftReduce.Proofs.Snapshots

/-!
Grammars that share their productions.

The nonterminals and productions that a reading finds are objects, and all grammars that are made
of one reading refer to the same ones. Making a grammar numbers the productions in place, whatever
numbers they have from before. The objects of a reading stand under its number here, and a grammar
shows what its objects hold by now.
-/

namespace ShiftReduce

namespace Production

/-- Number some productions consecutively, whatever numbers they had. -/
def renumberFrom (n : Nat) : List Production → List Production
  | [] => []
  | p :: rest => ⟨p.toRule, .numbered n⟩ :: renumberFrom (n + 1) rest

theorem renumberFrom_eq {ps : List Production} {head : String} {bodies : List (List Symbol)}
    (h : ps.map Production.toRule = bodies.map (⟨head, ·⟩)) (n : Nat) :
    renumberFrom n ps = numberFrom n head bodies := by
  induction ps generalizing n bodies with
  | nil =>
    cases bodies with
    | nil => rfl
    | cons body more => cases h
  | cons p rest ih =>
    cases bodies with
    | nil => cases h
    | cons body more =>
      obtain ⟨hp, hrest⟩ := List.cons.inj h
      rw [renumberFrom, numberFrom, hp, ih hrest]

end Production

namespace Nonterminal

/-- Number the productions of several nonterminals through. -/
def renumberAll (n : Nat) : List Nonterminal → List Nonterminal
  | [] => []
  | m :: rest =>
    ⟨m.name, Production.renumberFrom n m.productions⟩ :: renumberAll (n + m.productions.length) rest

/-- The object of a declaration, whatever numbers it has. -/
structure IsObject (m : Nonterminal) (d : Declaration) : Prop where
  name_eq : m.name = d.name
  rules_eq : m.productions.map Production.toRule = d.bodies.map (⟨d.name, ·⟩)

variable {ms : List Nonterminal} {ds : List Declaration}

theorem isObject_unlisted (d : Declaration) : (unlisted d).IsObject d :=
  ⟨rfl, by simp [unlisted]⟩

theorem isObject_number (n : Nat) (d : Declaration) : (number n d).IsObject d :=
  ⟨rfl, map_toRule_numberFrom n d.name d.bodies⟩

theorem isObject_unlistedAll (ds : List Declaration) :
    List.Forall₂ IsObject (ds.map unlisted) ds := by
  rw [List.forall₂_map_left_iff]
  exact List.forall₂_same.mpr fun d _ => isObject_unlisted d

theorem isObject_numberAll (n : Nat) (ds : List Declaration) :
    List.Forall₂ IsObject (numberAll n ds) ds := by
  induction ds generalizing n with
  | nil => exact .nil
  | cons d rest ih => exact .cons (isObject_number n d) (ih _)

/-- The numbers from before play no part. -/
theorem renumberAll_eq (h : List.Forall₂ IsObject ms ds) (n : Nat) :
    renumberAll n ms = numberAll n ds := by
  induction h generalizing n with
  | nil => rfl
  | @cons m d _ _ hobject _ ih =>
    have hlength : m.productions.length = d.bodies.length := by
      simpa using congrArg List.length hobject.rules_eq
    rw [renumberAll, numberAll, number, Production.renumberFrom_eq hobject.rules_eq,
      hobject.name_eq, hlength, ih]

end Nonterminal

def Declarations.all (ds : Declarations) : List Declaration := ds.start :: ds.others

/-- A reader with the objects that its readings have made. -/
structure Shared where
  reader : Reader
  objects : Dictionary Nat (List Nonterminal)

/-- A grammar that refers to the objects of a reading. -/
structure SharedGrammar where
  reading : Nat
  tokens : List Symbol

/-- The grammar as its objects show it by now. -/
def SharedGrammar.view? (g : SharedGrammar) (objects : Dictionary Nat (List Nonterminal)) :
    Option Grammar :=
  match Dictionary.get? objects g.reading with
  | some (first :: more) =>
    some ⟨first, more, Dictionary.ofList (g.tokens.map fun t => (t.name, t)),
      .named (first :: more)⟩
  | _ => none

namespace Shared

def of (r : Reader) : Shared := ⟨r, []⟩

/-- A reading makes new objects, which have no numbers yet. -/
def read (s : Shared) : Except ReadError Findings × Shared :=
  match s.reader.read with
  | (.error e, r) => (.error e, ⟨r, s.objects⟩)
  | (.ok found, r) => (.ok found,
      ⟨r, Dictionary.insert s.objects found.1.number (found.1.value.all.map .unlisted)⟩)

def getNonterminals (s : Shared) : Except ReadError (Serial Declarations) × Shared :=
  match s.reader.nonterminals with
  | some kept => (.ok kept, s)
  | none => (s.read.1.map (·.1), s.read.2)

def getTokens (s : Shared) : Except ReadError (Serial (List Symbol)) × Shared :=
  match s.reader.tokens with
  | some kept => (.ok kept, s)
  | none => (s.read.1.map (·.2), s.read.2)

/-- Number the objects of a reading in place. -/
def number (s : Shared) (reading : Nat) : Shared :=
  match Dictionary.get? s.objects reading with
  | some ms => ⟨s.reader, Dictionary.insert s.objects reading (Nonterminal.renumberAll 1 ms)⟩
  | none => s

/-- A grammar of the objects that are kept or else read now, which are numbered for it. -/
def load (s : Shared) : Except ReadError SharedGrammar × Shared :=
  match s.getNonterminals with
  | (.error e, s) => (.error e, s)
  | (.ok ns, s) =>
    match s.getTokens with
    | (.error e, s) => (.error e, s)
    | (.ok ts, s) => (.ok ⟨ns.number, ts.value⟩, s.number ns.number)

def call (s : Shared) : Call → Shared
  | .ask .tokens => s.getTokens.2
  | .ask .nonterminals => s.getNonterminals.2
  | .ask .grammar | .ask .table => s.load.2
  | c => ⟨(s.reader.call c).2, s.objects⟩

def after (s : Shared) (calls : List Call) : Shared := calls.foldl call s

section Reader

/-! The objects make no difference to what is read and kept. -/

theorem read_reader (s : Shared) :
    s.read.1 = s.reader.read.1 ∧ s.read.2.reader = s.reader.read.2 := by
  unfold read
  split
  all_goals
    rename_i heq
    rw [heq]
    exact ⟨rfl, rfl⟩

theorem getNonterminals_reader (s : Shared) : s.getNonterminals.1 = s.reader.getNonterminals.1 ∧
    s.getNonterminals.2.reader = s.reader.getNonterminals.2 := by
  unfold getNonterminals Reader.getNonterminals
  cases s.reader.nonterminals with
  | some kept => exact ⟨rfl, rfl⟩
  | none => exact ⟨by rw [(read_reader s).1], (read_reader s).2⟩

theorem getTokens_reader (s : Shared) : s.getTokens.1 = s.reader.getTokens.1 ∧
    s.getTokens.2.reader = s.reader.getTokens.2 := by
  unfold getTokens Reader.getTokens
  cases s.reader.tokens with
  | some kept => exact ⟨rfl, rfl⟩
  | none => exact ⟨by rw [(read_reader s).1], (read_reader s).2⟩

theorem number_reader (s : Shared) (reading : Nat) : (s.number reading).reader = s.reader := by
  unfold number
  split <;> rfl

theorem load_reader (s : Shared) : s.load.2.reader = s.reader.load.2 := by
  obtain ⟨hfound, hafter⟩ := getNonterminals_reader s
  unfold load Reader.load
  rcases hshared : s.getNonterminals with ⟨found, s'⟩
  rcases hreader : s.reader.getNonterminals with ⟨found', r'⟩
  rw [hshared, hreader] at hfound hafter
  obtain rfl : found = found' := hfound
  obtain rfl : s'.reader = r' := hafter
  cases found with
  | error e => rfl
  | ok ns =>
    obtain ⟨hfound, hafter⟩ := getTokens_reader s'
    simp only
    rcases hshared : s'.getTokens with ⟨found, s''⟩
    rcases hreader : s'.reader.getTokens with ⟨found', r''⟩
    rw [hshared, hreader] at hfound hafter
    obtain rfl : found = found' := hfound
    obtain rfl : s''.reader = r'' := hafter
    cases found with
    | error e => rfl
    | ok ts => exact number_reader s'' ns.number

theorem call_reader (s : Shared) (c : Call) : (s.call c).reader = (s.reader.call c).2 := by
  cases c with
  | ask q =>
    cases q with
    | tokens => exact (getTokens_reader s).2
    | nonterminals => exact (getNonterminals_reader s).2
    | grammar => exact load_reader s
    | table => exact load_reader s
  | assign head alternatives => rfl
  | remove head => rfl

theorem after_reader (s : Shared) (calls : List Call) :
    (s.after calls).reader = s.reader.after calls := by
  induction calls generalizing s with
  | nil => rfl
  | cons c rest ih =>
    change ((s.call c).after rest).reader = (s.reader.call c).2.after rest
    rw [ih, call_reader]

/-- A change of the mapping leaves the objects alone. -/
theorem call_change {s : Shared} {c : Call} (hc : ∀ q, c ≠ .ask q) :
    s.call c = ⟨s.reader.withMapping (s.reader.mapping.change c), s.objects⟩ := by
  rw [← (Reader.call_change hc).1]
  cases c <;> first | rfl | exact absurd rfl (hc _)

end Reader

/-- The nonterminals that are kept have their objects. -/
def Sound (s : Shared) : Prop :=
  ∀ ns, s.reader.nonterminals = some ns →
    ∃ ms, Dictionary.get? s.objects ns.number = some ms ∧
      List.Forall₂ Nonterminal.IsObject ms ns.value.all

/-- What is kept, with its objects numbered. -/
structure Holds (s : Shared) (ns : Serial Declarations) (ts : Serial (List Symbol)) : Prop where
  nonterminals : s.reader.nonterminals = some ns
  tokens : s.reader.tokens = some ts
  objects : Dictionary.get? s.objects ns.number = some (Nonterminal.numberAll 1 ns.value.all)

variable {s : Shared} {ns : Serial Declarations} {ts : Serial (List Symbol)} {found : Findings}

theorem read_of_ok (h : s.reader.read.1 = .ok found) : s.read = (.ok found, ⟨s.reader.read.2,
    Dictionary.insert s.objects found.1.number (found.1.value.all.map .unlisted)⟩) := by
  unfold read
  rcases hread : s.reader.read with ⟨res, r⟩
  obtain rfl : res = .ok found := by simpa [hread] using h
  rfl

theorem read_of_error {e : ReadError} (h : s.reader.read.1 = .error e) :
    s.read = (.error e, ⟨s.reader.read.2, s.objects⟩) := by
  unfold read
  rcases hread : s.reader.read with ⟨res, r⟩
  obtain rfl : res = .error e := by simpa [hread] using h
  rfl

namespace Sound

theorem read (h : s.Sound) : s.read.2.Sound := by
  intro ns hns
  cases hread : s.reader.read.1 with
  | ok found =>
    rw [read_of_ok hread] at hns ⊢
    obtain ⟨hkept, -, -, -⟩ := Reader.kept_of_read hread
    obtain rfl : found.1 = ns := Option.some.inj (hkept.symm.trans hns)
    exact ⟨_, by rw [Dictionary.get?_insert, if_pos (beq_self_eq_true _)],
      Nonterminal.isObject_unlistedAll _⟩
  | error e =>
    rw [read_of_error hread] at hns ⊢
    exact h ns ((Reader.nonterminals_of_read_error hread).symm.trans hns)

theorem getNonterminals (h : s.Sound) : s.getNonterminals.2.Sound := by
  unfold Shared.getNonterminals
  split
  · exact h
  · exact h.read

theorem getTokens (h : s.Sound) : s.getTokens.2.Sound := by
  unfold Shared.getTokens
  split
  · exact h
  · exact h.read

theorem number (h : s.Sound) (reading : Nat) : (s.number reading).Sound := by
  intro ns hns
  rw [number_reader] at hns
  obtain ⟨ms, hms, hobjects⟩ := h ns hns
  unfold Shared.number
  split
  · rename_i ms' hms'
    rw [Dictionary.get?_insert]
    split
    · rename_i heq
      rw [eq_of_beq heq] at hms
      obtain rfl : ms = ms' := Option.some.inj (hms.symm.trans hms')
      rw [Nonterminal.renumberAll_eq hobjects]
      exact ⟨_, rfl, Nonterminal.isObject_numberAll 1 _⟩
    · exact ⟨ms, hms, hobjects⟩
  · exact ⟨ms, hms, hobjects⟩

theorem load (h : s.Sound) : s.load.2.Sound := by
  have hns := h.getNonterminals
  unfold Shared.load
  split
  · rename_i heq
    rwa [heq] at hns
  · rename_i ns s' heq
    rw [heq] at hns
    have hts := Sound.getTokens hns
    split
    · rename_i heq
      rwa [heq] at hts
    · rename_i heq
      rw [heq] at hts
      exact Sound.number hts ns.number

theorem call (h : s.Sound) (c : Call) : (s.call c).Sound := by
  by_cases hc : ∃ q, c = .ask q
  · obtain ⟨q, rfl⟩ := hc
    cases q with
    | tokens => exact h.getTokens
    | nonterminals => exact h.getNonterminals
    | grammar => exact h.load
    | table => exact h.load
  · rw [call_change fun q hq => hc ⟨q, hq⟩]
    exact h

theorem after (h : s.Sound) (calls : List Call) : (s.after calls).Sound := by
  induction calls generalizing s with
  | nil => exact h
  | cons c rest ih => exact ih (h.call c)

/-- Once its objects are numbered a reading shows the grammar of what was found. -/
theorem objects_number (h : s.Sound) (hns : s.reader.nonterminals = some ns) :
    Dictionary.get? (s.number ns.number).objects ns.number =
      some (Nonterminal.numberAll 1 ns.value.all) := by
  obtain ⟨ms, hms, hobjects⟩ := h ns hns
  rw [Shared.number, hms]
  simp only
  rw [Dictionary.get?_insert, if_pos (beq_self_eq_true _), Nonterminal.renumberAll_eq hobjects]

end Sound

theorem load_of_kept (hns : s.reader.nonterminals = some ns) (hts : s.reader.tokens = some ts) :
    s.load = (.ok ⟨ns.number, ts.value⟩, s.number ns.number) := by
  simp only [load, getNonterminals, getTokens, hns, hts]

theorem load_of_read (hnone : s.reader.nonterminals = none)
    (hread : s.reader.read.1 = .ok found) : s.load =
      (.ok ⟨found.1.number, found.2.value⟩, s.read.2.number found.1.number) := by
  obtain ⟨-, hts, -, -⟩ := Reader.kept_of_read hread
  simp only [load, getNonterminals, getTokens, hnone, read_of_ok hread, Except.map, hts]

/-- A grammar that is returned refers to the objects of what is kept, and they are numbered. -/
theorem Sound.holds_load (h : s.Sound) {k? : Option Mapping} (hk : s.reader.Keeps k?)
    {g : Grammar} (hg : s.reader.load.1 = .ok g) (hns : s.reader.load.2.nonterminals = some ns)
    (hts : s.reader.load.2.tokens = some ts) :
    s.load.1 = .ok ⟨ns.number, ts.value⟩ ∧ s.load.2.Holds ns ts := by
  cases k? with
  | some k =>
    obtain ⟨ns', ts', hns', hts', hload, -⟩ := hk.load_eq
    rw [hload] at hns hts
    rw [load_of_kept hns hts]
    exact ⟨rfl, by rwa [number_reader], by rwa [number_reader], h.objects_number hns⟩
  | none =>
    rw [Reader.load_of_none hk] at hg hns hts
    cases hread : s.reader.read.1 with
    | error e =>
      rw [hread] at hg
      cases hg
    | ok found =>
      obtain ⟨hns', hts', -, -⟩ := Reader.kept_of_read hread
      obtain rfl : found.1 = ns := Option.some.inj (hns'.symm.trans hns)
      obtain rfl : found.2 = ts := Option.some.inj (hts'.symm.trans hts)
      have hreader := (read_reader s).2
      rw [load_of_read hk hread]
      refine ⟨rfl, ?_, ?_, h.read.objects_number (by rwa [hreader])⟩
      · rwa [number_reader, hreader]
      · rwa [number_reader, hreader]

/-- No later call changes the numbers: the objects are numbered again as they were. -/
theorem Holds.call (h : s.Holds ns ts) (c : Call) : (s.call c).Holds ns ts := by
  obtain ⟨hns, hts, hobjects⟩ := h
  have hload : s.load.2.Holds ns ts := by
    have hsame : List.Forall₂ Nonterminal.IsObject (Nonterminal.numberAll 1 ns.value.all)
        ns.value.all := Nonterminal.isObject_numberAll 1 _
    rw [load_of_kept hns hts]
    refine ⟨by rwa [number_reader], by rwa [number_reader], ?_⟩
    rw [Shared.number, hobjects]
    simp only
    rw [Dictionary.get?_insert, if_pos (beq_self_eq_true _), Nonterminal.renumberAll_eq hsame]
  by_cases hc : ∃ q, c = .ask q
  · obtain ⟨q, rfl⟩ := hc
    cases q with
    | tokens =>
      rw [Shared.call, getTokens, hts]
      exact ⟨hns, hts, hobjects⟩
    | nonterminals =>
      rw [Shared.call, getNonterminals, hns]
      exact ⟨hns, hts, hobjects⟩
    | grammar => exact hload
    | table => exact hload
  · rw [call_change fun q hq => hc ⟨q, hq⟩]
    exact ⟨hns, hts, hobjects⟩

theorem Holds.after (h : s.Holds ns ts) (calls : List Call) : (s.after calls).Holds ns ts := by
  induction calls generalizing s with
  | nil => exact h
  | cons c rest ih => exact ih (h.call c)

/-- The grammar that is made of the objects. -/
theorem Holds.view?_eq (h : s.Holds ns ts) :
    SharedGrammar.view? ⟨ns.number, ts.value⟩ s.objects = some (Findings.grammar (ns, ts)) := by
  rw [SharedGrammar.view?, h.objects]
  rfl

end Shared

namespace Grammar

/-- The production that a grammar has for a rule by now. -/
def current (g : Grammar) (p : Production) : Production :=
  (g.augmentedProductions.find? (·.toRule = p.toRule)).getD p

end Grammar

/-- A reduction with the number that its production has by now. -/
def Action.reread (g : Grammar) : Action → Action
  | .reduce n rule => .reduce ((g.current ⟨rule, .numbered n⟩).number?.getD n) rule
  | a => a

def Item.reread (g : Grammar) (i : Item) : Item := ⟨g.current i.production, i.dot⟩

def ItemSet.reread (g : Grammar) (s : ItemSet) : ItemSet :=
  ⟨s.kernel.map (Item.reread g), s.added.map (Item.reread g)⟩

/-- A table as its productions show it by now. -/
def Table.reread (g : Grammar) (t : Table) : Table where
  sets := ⟨g, t.sets.first, t.sets.follow⟩
  collection := ⟨t.collection.states.map (ItemSet.reread g), t.collection.transitions⟩
  rows := t.rows.map fun row => row.map fun cell => (cell.1, cell.2.reread g)
  conflicts := t.conflicts

namespace Grammar.WellFormed

variable {g : Grammar} {t : Table} {p : Production} {k : Nat} (wf : g.WellFormed)

include wf

theorem current_eq (hp : p ∈ g.augmentedProductions) : g.current p = p := by
  have hfind : g.augmentedProductions.find? (·.toRule = p.toRule) = some p :=
    find?_eq_some_of_unique hp (by simp) fun q hq hrule =>
      wf.eq_of_toRule_eq hq hp (of_decide_eq_true hrule)
  rw [current, hfind, Option.getD_some]

theorem reread_state {s : ItemSet} (hs : g.collection.states[k]? = some s) :
    s.reread g = s := by
  have hitem : ∀ i ∈ s.items, Item.reread g i = id i := by
    intro i hi
    rw [Item.reread, wf.current_eq (wf.hasItem_of_state hs hi).mem, id]
  have hmap : ∀ items ⊆ s.items, items.map (Item.reread g) = items := by
    intro items hitems
    rw [List.map_congr_left fun i hi => hitem i (hitems hi), List.map_id]
  rw [ItemSet.reread, hmap _ (List.subset_append_left _ _), hmap _ (List.subset_append_right _ _)]

theorem reread_action {follow : Facts} {x : Symbol} {a : Action} (ha : g.Asks follow k x a) :
    a.reread g = a := by
  obtain ⟨s, hs, i, hi, ha⟩ := ha
  cases ha with
  | shift | accept => rfl
  | @reduce _ n hx hn _ =>
    have hp : (⟨i.production.toRule, .numbered n⟩ : Production) = i.production := by
      obtain ⟨m, hm⟩ := wf.exists_origin (wf.mem_productions_of_complete hs hi hx)
      obtain rfl : m = n := by simpa [Production.number?, hm] using hn
      rw [← hm]
    rw [Action.reread, hp, wf.current_eq (wf.hasItem_of_state hs hi).mem, hn, Option.getD_some]

theorem reread_row (ht : g.table = .ok t) {row : Row} (hrow : t.rows[k]? = some row) :
    (row.map fun cell => (cell.1, cell.2.reread g)) = row := by
  have hcell : ∀ cell ∈ row, (cell.1, cell.2.reread g) = id cell := by
    intro cell hcell
    have hget := (wf.distinct ht hrow).mem_iff.mp hcell
    rw [wf.reread_action (wf.asks_of_cell ht hrow hget), id]
  rw [List.map_congr_left hcell, List.map_id]

/-- Nothing in a table is told otherwise by what its grammar shows. -/
theorem reread_table (ht : g.table = .ok t) : t.reread g = t := by
  have hgrammar : t.sets.grammar = g := grammar_of_table ht
  have hcollection : t.collection = g.collection := (table_ok ht).2.1
  have hstates : t.collection.states.map (ItemSet.reread g) = t.collection.states := by
    rw [hcollection, List.map_congr_left (g := id), List.map_id]
    intro s hs
    obtain ⟨k, hk⟩ := List.mem_iff_getElem?.mp hs
    exact wf.reread_state hk
  have hrows : (t.rows.map fun row => row.map fun cell => (cell.1, cell.2.reread g)) = t.rows := by
    rw [List.map_congr_left (g := id), List.map_id]
    intro row hrow
    obtain ⟨k, hk⟩ := List.mem_iff_getElem?.mp hrow
    exact wf.reread_row ht hk
  rw [Table.reread, hstates, hrows, ← hgrammar]

end Grammar.WellFormed

namespace Reader

variable {d : Datum} {r : Reader}

/-- A new reader has read nothing, and no two keys of its mapping are the same. -/
theorem keeps_of_ofDatum (h : ofDatum d = .ok r) :
    Dictionary.Distinct r.mapping ∧ r.Keeps none := by
  cases hm : Mapping.ofDatum d with
  | error e =>
    rw [ofDatum, hm] at h
    cases h
  | ok m =>
    rw [ofDatum, hm] at h
    cases h
    refine ⟨?_, rfl⟩
    unfold Mapping.ofDatum at hm
    split at hm
    · cases hm
    · cases hm
      exact Dictionary.distinct_ofList _
    · cases hm

theorem load_of_ask_grammar {g : Grammar} (h : (r.ask .grammar).1 = .ok (.grammar g)) :
    r.load.1 = .ok g := by
  rw [ask] at h
  cases hload : r.load.1 with
  | error e =>
    rw [hload] at h
    cases h
  | ok g' =>
    rw [hload] at h
    cases h
    rfl

theorem load_of_ask_table {t : Table} (h : (r.ask .table).1 = .ok (.table t)) :
    ∃ g, r.load.1 = .ok g ∧ g.table = .ok t := by
  rw [ask] at h
  cases hload : r.load.1 with
  | error e =>
    rw [hload] at h
    cases h
  | ok g =>
    refine ⟨g, rfl, ?_⟩
    rw [hload] at h
    simp only [Except.mapError, Except.bind] at h
    cases ht : g.table with
    | error e =>
      rw [ht] at h
      cases h
    | ok t' =>
      rw [ht] at h
      cases h
      rfl

theorem load_written {k : Mapping} (hk : Dictionary.Distinct k) {g : Grammar}
    (hg : (ofMapping k).load.1 = .ok g) : (Source.written (.mapping k)).load = .ok g := by
  have hne : k ≠ [] := by
    rintro rfl
    cases hg
  have hm : Datum.IsMapping (.mapping k) k := ⟨k, rfl, hne, hk.ofList_eq⟩
  have hofDatum := (Grammar.ofDatum_of_isMapping hm).2
  rw [hg] at hofDatum
  exact congrArg (Except.mapError LoadError.read) hofDatum

end Reader

/-- A grammar that is returned is that of the mapping as it was at the first reading that came to
its end, and its objects show it for good. -/
theorem Shared.exists_snapshot {r : Reader} (hdistinct : Dictionary.Distinct r.mapping)
    (hkeeps : r.Keeps none) (calls later : List Call) {g : Grammar}
    (hg : (r.after calls).load.1 = .ok g) :
    ∃ k, r.firstCompleted? (calls ++ [.ask .grammar]) = some k ∧
      (Source.written (.mapping k)).load = .ok g ∧
      ∃ shared, ((Shared.of r).after calls).load.1 = .ok shared ∧
        shared.view? (((Shared.of r).after calls).load.2.after later).objects = some g := by
  have hafter := hkeeps.after calls
  have hreader : ((Shared.of r).after calls).reader = r.after calls := after_reader _ _
  have hsound : ((Shared.of r).after calls).Sound := by
    apply Sound.after
    intro ns hns
    cases hkeeps.symm.trans hns
  obtain ⟨k, ns, ts, hk, hload, hns, hts, rfl⟩ := hafter.exists_of_load hg
  rw [Option.none_or, ← Reader.firstCompleted?_concat] at hk
  rw [← hreader] at hafter hg hns hts
  obtain ⟨hshared, hholds⟩ := hsound.holds_load hafter hg hns hts
  exact ⟨k, hk, Reader.load_written (hkeeps.distinct hdistinct hk) hload, _, hshared,
    (hholds.after later).view?_eq⟩

/-- Whatever is asked and changed, every grammar and every table that is returned is that of the
mapping as it was at the first reading that came to its end. The grammar that is returned shares
its productions with all others; after all later calls it shows the same numbers. -/
theorem Source.snapshot {d : Datum} {r : Reader} (h : Reader.ofDatum d = .ok r)
    (calls later : List Call) :
    (∀ g, ((r.after calls).ask .grammar).1 = .ok (.grammar g) →
      ∃ k, r.firstCompleted? (calls ++ [.ask .grammar]) = some k ∧
        (Source.written (.mapping k)).load = .ok g ∧
        ∃ shared, ((Shared.of r).after calls).load.1 = .ok shared ∧
          shared.view? ((Shared.of r).after (calls ++ .ask .grammar :: later)).objects = some g) ∧
    ∀ t, ((r.after calls).ask .table).1 = .ok (.table t) →
      ∃ k, r.firstCompleted? (calls ++ [.ask .table]) = some k ∧
        (Source.written (.mapping k)).table = .ok t ∧
        ∃ shared g, ((Shared.of r).after calls).load.1 = .ok shared ∧
          shared.view? ((Shared.of r).after (calls ++ .ask .table :: later)).objects = some g ∧
          t.reread g = t := by
  obtain ⟨hdistinct, hkeeps⟩ := Reader.keeps_of_ofDatum h
  have hlater : ∀ q, q = .grammar ∨ q = .table → (Shared.of r).after (calls ++ .ask q :: later) =
      (((Shared.of r).after calls).load.2).after later := by
    rintro q (rfl | rfl)
    all_goals
      rw [Shared.after, List.foldl_append]
      rfl
  have hfirst : r.firstCompleted? (calls ++ [.ask .table]) =
      r.firstCompleted? (calls ++ [.ask .grammar]) := by
    rw [Reader.firstCompleted?_concat, Reader.firstCompleted?_concat]
    rfl
  constructor
  · intro g hg
    rw [hlater _ (.inl rfl)]
    exact Shared.exists_snapshot hdistinct hkeeps calls later (Reader.load_of_ask_grammar hg)
  · intro t ht
    rw [hlater _ (.inr rfl), hfirst]
    obtain ⟨g, hg, htable⟩ := Reader.load_of_ask_table ht
    obtain ⟨k, hk, hload, shared, hshared, hview⟩ :=
      Shared.exists_snapshot hdistinct hkeeps calls later hg
    exact ⟨k, hk, (table_eq_ok hload).mpr htable, shared, g, hshared, hview,
      (load_wellFormed hload).reread_table htable⟩

/-- A mapping loses its only head and is given another, which is lost again after it has been
read. -/
def Source.changes : List Call :=
  [.remove (.text "S"), .ask .tokens, .assign (.text "E") (.list [.text "E a", .text "a"]),
    .ask .grammar, .remove (.text "E"), .ask .nonterminals]

set_option maxRecDepth 100000 in
theorem Source.changes_snapshot : ∃ r t,
    Reader.ofDatum (.mapping [(.text "S", .list [.text "b"])]) = .ok r ∧
    ((r.after changes).ask .table).1 = .ok (.table t) ∧
    (written (.mapping [(.text "E", .list [.text "E a", .text "a"])])).table = .ok t ∧
    ∃ shared g, ((Shared.of r).after changes).load.1 = .ok shared ∧
      shared.view? ((Shared.of r).after (changes ++ [.ask .table, .ask .grammar])).objects =
        some g ∧ t.reread g = t := by
  have h : Reader.ofDatum (.mapping [(.text "S", .list [.text "b"])]) =
      .ok (.ofMapping [(.text "S", .list [.text "b"])]) := rfl
  have htable : Except.passes (fun a => match a with | .table _ => true | _ => false)
      (((Reader.ofMapping [(.text "S", .list [.text "b"])]).after changes).ask .table).1 =
        true := by
    decide +kernel
  obtain ⟨a, ha, htest⟩ := Except.exists_of_passes htable
  cases a with
  | table t =>
    obtain ⟨k, hk, ht, hshared⟩ := (Source.snapshot h changes [.ask .grammar]).2 t ha
    have hfirst : (Reader.ofMapping [(.text "S", .list [.text "b"])]).firstCompleted?
        (changes ++ [.ask .table]) = some [(.text "E", .list [.text "E a", .text "a"])] := rfl
    obtain rfl := Option.some.inj (hk.symm.trans hfirst)
    exact ⟨_, t, h, ha, ht, hshared⟩
  | _ => cases htest

end ShiftReduce
