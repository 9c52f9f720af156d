/-
Stored graphs.

What is stored of a graph is read back as the same graph, if every number in it is one that its
place can hold: handles have 32 bits and priorities 64 (`Storable`). Names and labels are any
texts. Each structure has its lemma, from those of its fields; that a record's values are found
under the names of its fields is said once, for all records (`fields?_record`).
-/
import SignalGraph.Format.Graph
import SignalGraph.Proofs.Printing

namespace SignalGraph

namespace Json

/-! ## Lists, options and records -/

theorem mapM_map_of_forall {α β γ : Type} {f : α → γ} {read : γ → Option β} {g : α → β} :
    ∀ {l : List α}, (∀ a ∈ l, read (f a) = some (g a)) → (l.map f).mapM read = some (l.map g)
  | [], _ => rfl
  | a :: l, h => by
    have hrest := mapM_map_of_forall (l := l) fun b hb => h b (by simp [hb])
    rw [List.map_cons, List.mapM_cons, h a (by simp), hrest]
    rfl

theorem list?_ofList {α : Type} {write : α → Json} {read : Json → Option α} {items : List α}
    (h : ∀ a ∈ items, read (write a) = some a) : (ofList write items).list? read = some items := by
  rw [ofList, list?, mapM_map_of_forall (g := id) h, List.map_id]

theorem uniqueField?_record {name : String} {v : Json} : ∀ {fields : List (String × Json)},
    (fields.map Prod.fst).Nodup → (name, v) ∈ fields →
    uniqueField? (fields.map fun f => (some f.1, f.2)) name = some (some v)
  | (name', w) :: fields, hnodup, hmem => by
    rw [List.map_cons, List.nodup_cons] at hnodup
    rcases List.mem_cons.mp hmem with hfirst | hrest
    · cases hfirst
      have hnone : (fields.map fun f => ((some f.1 : Text), f.2)).filter (fun f => f.1 == some name) = [] := by
        simp only [List.filter_eq_nil_iff, List.mem_map, forall_exists_index, and_imp]
        rintro _ f hf rfl he
        exact hnodup.1 (List.mem_map.mpr ⟨f, hf, by simpa using he⟩)
      rw [uniqueField?, List.map_cons, List.filter_cons_of_pos (by simp), hnone]
    · have hne : name' ≠ name := fun he => hnodup.1 (List.mem_map.mpr ⟨_, hrest, he.symm⟩)
      rw [uniqueField?, List.map_cons, List.filter_cons_of_neg (by simpa using hne)]
      exact uniqueField?_record hnodup.2 hrest

/-- The values of a record stand under the names of its fields. -/
theorem fields?_record {fields : List (String × Json)} {names : List String} (hnames : fields.map Prod.fst = names)
    (h : names.Nodup) : fields? names (record fields) = some (fields.map fun f => some f.2) := by
  subst hnames
  rw [record, fields?, if_pos (by simp)]
  exact mapM_map_of_forall fun f hf => uniqueField?_record h hf

theorem allFields?_record {fields : List (String × Json)} {names : List String}
    (hnames : fields.map Prod.fst = names) (h : names.Nodup) :
    allFields? names (record fields) = some (fields.map fun f => some f.2) := fields?_record hnames h

theorem variant?_record (name : String) (fields : List (String × Json)) :
    (record [(name, record fields)]).variant? = some (name, record fields) := rfl

theorem natBelow?_nat {bound n : Nat} (h : n < bound) : (nat n).natBelow? bound = some n := if_pos h

end Json

/-! ## Signals -/

/-- The handle has 32 bits. -/
def SignalId.Storable (s : SignalId) : Prop := s.index < handleBound

instance (s : SignalId) : Decidable s.Storable := inferInstanceAs (Decidable (_ < _))

theorem SignalId.ofJson?_toJson {s : SignalId} (h : s.Storable) : SignalId.ofJson? s.toJson = some s := by
  rw [SignalId.ofJson?, SignalId.toJson, Json.natBelow?_nat h, Option.map_some]

theorem SignalInfo.ofJson?_toJson (i : SignalInfo) : SignalInfo.ofJson? i.toJson = some i := by
  rw [SignalInfo.ofJson?, SignalInfo.toJson, Json.allFields?_record (by rfl) (by decide)]
  rfl

/-! ## Guards -/

def Test.Storable (t : Test) : Prop := t.signal.Storable

instance (t : Test) : Decidable t.Storable := inferInstanceAs (Decidable t.signal.Storable)

def Clause.Storable (c : Clause) : Prop := ∀ t ∈ c.tests, t.Storable

instance (c : Clause) : Decidable c.Storable := inferInstanceAs (Decidable (∀ t ∈ c.tests, t.Storable))

def Guard.Storable (g : Guard) : Prop := ∀ c ∈ g.clauses, c.Storable

instance (g : Guard) : Decidable g.Storable := inferInstanceAs (Decidable (∀ c ∈ g.clauses, c.Storable))

theorem Test.ofJson?_toJson {t : Test} (h : t.Storable) : Test.ofJson? t.toJson = some t := by
  rw [Test.ofJson?, Test.toJson, Json.allFields?_record (by rfl) (by decide)]
  simp [SignalId.ofJson?_toJson h, Json.bool?]

theorem Clause.ofJson?_toJson {c : Clause} (h : c.Storable) : Clause.ofJson? c.toJson = some c := by
  have htests := Json.list?_ofList fun t ht => Test.ofJson?_toJson (h t ht)
  rw [Clause.ofJson?, Clause.toJson, Json.allFields?_record (by rfl) (by decide)]
  simp [htests]

theorem Guard.ofJson?_toJson {g : Guard} (h : g.Storable) : Guard.ofJson? g.toJson = some g := by
  have hclauses := Json.list?_ofList fun c hc => Clause.ofJson?_toJson (h c hc)
  rw [Guard.ofJson?, Guard.toJson, Json.allFields?_record (by rfl) (by decide)]
  simp [hclauses]

/-! ## States -/

/-- The handle has 32 bits. -/
def StateId.Storable (q : StateId) : Prop := q.index < handleBound

instance (q : StateId) : Decidable q.Storable := inferInstanceAs (Decidable (_ < _))

def Action.Storable : Action → Prop
  | drive signal _ => signal.Storable
  | copy src dst => src.Storable ∧ dst.Storable

instance : (a : Action) → Decidable a.Storable
  | .drive signal _ => inferInstanceAs (Decidable signal.Storable)
  | .copy src dst => inferInstanceAs (Decidable (src.Storable ∧ dst.Storable))

/-- The handles have 32 bits and the priority has 64. -/
structure Transition.Storable (t : Transition) : Prop where
  source : t.source.Storable
  target : t.target.Storable
  guard : t.guard.Storable
  priority : t.priority < countBound

instance (t : Transition) : Decidable t.Storable :=
  decidable_of_iff (t.source.Storable ∧ t.target.Storable ∧ t.guard.Storable ∧ t.priority < countBound)
    ⟨fun h => ⟨h.1, h.2.1, h.2.2.1, h.2.2.2⟩, fun h => ⟨h.source, h.target, h.guard, h.priority⟩⟩

structure StateNode.Storable (n : StateNode) : Prop where
  actions : ∀ a ∈ n.actions, a.Storable
  transitions : ∀ t ∈ n.transitions, t.Storable
  default : ∀ q ∈ n.defaultTarget, q.Storable

instance (n : StateNode) : Decidable n.Storable :=
  decidable_of_iff ((∀ a ∈ n.actions, a.Storable) ∧ (∀ t ∈ n.transitions, t.Storable) ∧
      ∀ q ∈ n.defaultTarget, q.Storable)
    ⟨fun h => ⟨h.1, h.2.1, h.2.2⟩, fun h => ⟨h.actions, h.transitions, h.default⟩⟩

theorem StateId.ofJson?_toJson {q : StateId} (h : q.Storable) : StateId.ofJson? q.toJson = some q := by
  rw [StateId.ofJson?, StateId.toJson, Json.natBelow?_nat h, Option.map_some]

theorem Action.ofJson?_toJson {a : Action} (h : a.Storable) : Action.ofJson? a.toJson = some a := by
  cases a with
  | drive signal value =>
    have hbody : (Json.record [("signal", signal.toJson), ("value", .bool value)]).fields? ["signal", "value"] =
        some [some signal.toJson, some (.bool value)] := Json.fields?_record (by rfl) (by decide)
    simp [Action.ofJson?, Action.toJson, Json.variant?_record, hbody, SignalId.ofJson?_toJson h, Json.bool?]
  | copy src dst =>
    have hbody : (Json.record [("src", src.toJson), ("dst", dst.toJson)]).fields? ["src", "dst"] =
        some [some src.toJson, some dst.toJson] := Json.fields?_record (by rfl) (by decide)
    simp [Action.ofJson?, Action.toJson, Json.variant?_record, hbody, SignalId.ofJson?_toJson h.1,
      SignalId.ofJson?_toJson h.2]

theorem Transition.ofJson?_toJson {t : Transition} (h : t.Storable) : Transition.ofJson? t.toJson = some t := by
  rw [Transition.ofJson?, Transition.toJson, Json.allFields?_record (by rfl) (by decide)]
  simp [StateId.ofJson?_toJson h.source, StateId.ofJson?_toJson h.target, Guard.ofJson?_toJson h.guard,
    Json.natBelow?_nat h.priority]

theorem StateId.option?_ofOption {q? : Option StateId} (h : ∀ q ∈ q?, q.Storable) :
    (Json.ofOption StateId.toJson q?).option? StateId.ofJson? = some q? := by
  cases q? with
  | none => rfl
  | some q =>
    show (StateId.ofJson? q.toJson).map some = some (some q)
    rw [StateId.ofJson?_toJson (h q rfl), Option.map_some]

theorem StateNode.ofJson?_toJson {n : StateNode} (h : n.Storable) : StateNode.ofJson? n.toJson = some n := by
  have hactions := Json.list?_ofList fun a ha => Action.ofJson?_toJson (h.actions a ha)
  have htransitions := Json.list?_ofList fun t ht => Transition.ofJson?_toJson (h.transitions t ht)
  have hdefault := StateId.option?_ofOption h.default
  rw [StateNode.ofJson?, StateNode.toJson, Json.allFields?_record (by rfl) (by decide)]
  simp [hactions, htransitions, hdefault, Json.str, Json.str?]

/-! ## Programs -/

/-- Every number of the program is one that its place can hold. -/
structure Program.Storable (p : Program) : Prop where
  states : ∀ n ∈ p.states, n.Storable
  entry : p.entry.Storable
  exit : p.exit.Storable

instance (p : Program) : Decidable p.Storable :=
  decidable_of_iff ((∀ n ∈ p.states, n.Storable) ∧ p.entry.Storable ∧ p.exit.Storable)
    ⟨fun h => ⟨h.1, h.2.1, h.2.2⟩, fun h => ⟨h.states, h.entry, h.exit⟩⟩

theorem Program.ofJson?_toJson {p : Program} (h : p.Storable) : Program.ofJson? p.toJson = some p := by
  have hsignals := Json.list?_ofList fun i (_ : i ∈ p.signals.toList) => SignalInfo.ofJson?_toJson i
  have hstates := Json.list?_ofList fun n hn => StateNode.ofJson?_toJson (h.states n (Array.mem_toList_iff.mp hn))
  rw [Program.ofJson?, Program.toJson, Json.allFields?_record (by rfl) (by decide)]
  simp [hsignals, hstates, StateId.ofJson?_toJson h.entry, StateId.ofJson?_toJson h.exit]

/-- **Stored programs are read back.** The text of a program is that of a JSON value, and what is read
from this value is the program, whatever its names and labels are and however its guards,
actions and edges are made up. -/
theorem Program.stored_read_back {p : Program} (h : p.Storable) :
    (Json.parse? p.toText).bind Program.ofJson? = some p := by
  rw [Program.toText, Json.pretty, Json.parse?_write, Option.bind_some, Program.ofJson?_toJson h]

/-- A program with a name that has to be escaped, the greatest numbers, an empty clause and handles of
nothing. -/
def awkwardProgram : Program where
  signals := #[⟨"\"a\\\n\x01é\t\x7f", true, false⟩, ⟨"", false, true⟩]
  states := #[{ label := "κ", actions := [.copy ⟨7⟩ ⟨0⟩, .drive ⟨0⟩ true]
                transitions := [⟨⟨3⟩, ⟨0xFFFFFFFF⟩, ⟨[⟨[]⟩, ⟨[⟨⟨9⟩, false⟩]⟩]⟩, 0xFFFFFFFFFFFFFFFF⟩] },
    { label := "\r", defaultTarget := some ⟨1⟩ }]
  entry := ⟨0⟩
  exit := ⟨5⟩

theorem awkwardProgram_read_back :
    awkwardProgram.Storable ∧ (Json.parse? awkwardProgram.toText).bind Program.ofJson? = some awkwardProgram :=
  have h : awkwardProgram.Storable := by decide
  ⟨h, Program.stored_read_back h⟩

end SignalGraph
