/-
Names that construction gives.

Blocks and constants name their signals themselves, with a dot in every name: the part before the
first dot is the scope of a block, which has a number of its own, or `const`. Where a caller
chooses no name with a dot (`Tidy`), a scope that was not reserved and a constant that was not
made yet have all their names free.
-/
import SignalGraph.Proofs.Edits

namespace SignalGraph

/-! ## Text -/

/-- A text is cut at the first occurrence of a character in one way only. -/
theorem append_cons_inj {α : Type} {c : α} {s s' t t' : List α} (hs : c ∉ s) (hs' : c ∉ s')
    (h : s ++ c :: t = s' ++ c :: t') : s = s' ∧ t = t' := by
  induction s generalizing s' with
  | nil =>
    cases s' with
    | nil => exact ⟨rfl, (List.cons.inj h).2⟩
    | cons y s' => exact absurd ((List.cons.inj h).1 ▸ List.mem_cons_self) hs'
  | cons x s ih =>
    cases s' with
    | nil => exact absurd ((List.cons.inj h).1 ▸ List.mem_cons_self) hs
    | cons y s' =>
      obtain ⟨rfl, htail⟩ := List.cons.inj h
      obtain ⟨rfl, ht⟩ := ih (List.not_mem_of_not_mem_cons hs) (List.not_mem_of_not_mem_cons hs') htail
      exact ⟨rfl, ht⟩

theorem digitChar_inj {m n : Nat} (hm : m < 16) (hn : n < 16) (h : Nat.digitChar m = Nat.digitChar n) : m = n := by
  have hall : ∀ m n : Fin 16, Nat.digitChar m = Nat.digitChar n → m = n := by decide
  exact congrArg Fin.val (hall ⟨m, hm⟩ ⟨n, hn⟩ h)

theorem toDigits_inj {b : Nat} (hb : 1 < b) (hb' : b ≤ 16) {m n : Nat} (h : Nat.toDigits b m = Nat.toDigits b n) :
    m = n := by
  induction m using Nat.strongRecOn generalizing n with
  | ind m ih =>
    have hmod : ∀ k, k % b < 16 := fun k => Nat.lt_of_lt_of_le (Nat.mod_lt k (by omega)) hb'
    rw [Nat.toDigits_eq_if hb (n := m), Nat.toDigits_eq_if hb (n := n)] at h
    by_cases hm : m < b <;> by_cases hn : n < b
    · simp only [hm, hn, if_true, List.cons.injEq, and_true] at h
      exact digitChar_inj (by omega) (by omega) h
    · simp [hm, hn, List.cons_eq_append_iff, Nat.toDigits_ne_nil] at h
    · simp [hm, hn, List.append_eq_cons_iff, Nat.toDigits_ne_nil] at h
    · simp only [hm, hn, if_false] at h
      obtain ⟨hquot, hrem⟩ := List.append_inj' h rfl
      have hquot := ih (m / b) (Nat.div_lt_self (by omega) hb) hquot
      have hrem := digitChar_inj (hmod m) (hmod n) (List.cons.inj hrem).1
      rw [← Nat.div_add_mod m b, ← Nat.div_add_mod n b, hquot, hrem]

theorem dot_notMem_toDigits {b : Nat} (hb : 1 < b) (n : Nat) : '.' ∉ Nat.toDigits b n := by
  have hchar : ∀ m, '.' ≠ Nat.digitChar m := fun m => (Nat.digitChar_ne '.' rfl).symm
  induction n using Nat.strongRecOn with
  | ind n ih =>
    rw [Nat.toDigits_eq_if hb]
    split
    · simp [hchar]
    · simp [hchar, ih (n / b) (Nat.div_lt_self (by omega) hb)]

theorem toList_toString (n : Nat) : (toString n).toList = Nat.toDigits 10 n := by
  rw [Nat.toString_eq_ofList_toDigits, String.toList_ofList]

theorem isDigit_of_mem_toString {n : Nat} {c : Char} (h : c ∈ (toString n).toList) : c.isDigit = true :=
  Nat.isDigit_of_mem_toDigits (by omega) (by omega) (toList_toString n ▸ h)

theorem toList_toString_inj {m n : Nat} (h : (toString m).toList = (toString n).toList) : m = n := by
  rw [toList_toString, toList_toString] at h
  exact toDigits_inj (by omega) (by omega) h

/-! ## The names of bits and constants -/

theorem toList_bitName (name : String) (i : Nat) :
    (s!"{name}[{i}]").toList = name.toList ++ '[' :: ((toString i).toList ++ [']']) := by
  show (name ++ "[" ++ toString i ++ "]").toList = _
  simp

/-- The bits of a register have different names. -/
theorem bitName_inj {name : String} {i j : Nat} (h : s!"{name}[{i}]" = s!"{name}[{j}]") : i = j := by
  have h := congrArg String.toList h
  rw [toList_bitName, toList_bitName, List.append_cancel_left_eq, List.cons.injEq] at h
  exact toList_toString_inj (List.append_cancel_right h.2)

theorem dot_notMem_bitName {name : String} (h : '.' ∉ name.toList) (i : Nat) : '.' ∉ (s!"{name}[{i}]").toList := by
  rw [toList_bitName]
  simp [h, dot_notMem_toDigits]

namespace ConstantKey

theorem toList_name_literal (value : Word) (width : Nat) : (literal value width).name.toList =
    "const.0x".toList ++ (Nat.toDigits 16 value.toNat ++ '.' :: 'w' :: (toString width).toList) := by
  simp [name, Word.hex]

theorem toList_name_ones (width : Nat) :
    (ones width).name.toList = "const.ones.w".toList ++ (toString width).toList := by
  simp [name]

/-- A name of a constant has its key in it. -/
theorem eq_of_bitName {key other : ConstantKey} {i j : Nat} (h : s!"{key.name}[{i}]" = s!"{other.name}[{j}]") :
    key = other := by
  have hbracket : ∀ n : Nat, '[' ∉ (toString n).toList := fun n hn =>
    absurd (isDigit_of_mem_toString hn) (by decide)
  have hdot : ∀ n, '.' ∉ Nat.toDigits 16 n := dot_notMem_toDigits (by omega)
  have h := congrArg String.toList h
  rw [toList_bitName, toList_bitName] at h
  cases key with
  | literal value width =>
    cases other with
    | literal value' width' =>
      simp only [toList_name_literal, List.append_assoc, List.cons_append, List.append_cancel_left_eq] at h
      obtain ⟨hvalue, hrest⟩ := append_cons_inj (hdot _) (hdot _) h
      obtain ⟨hwidth, -⟩ := append_cons_inj (hbracket _) (hbracket _) (List.cons.inj hrest).2
      rw [toList_toString_inj hwidth, UInt64.toNat_inj.mp (toDigits_inj (by omega) (by omega) hvalue)]
    | ones width' => simp [toList_name_literal, toList_name_ones] at h
  | ones width =>
    cases other with
    | literal value' width' => simp [toList_name_literal, toList_name_ones] at h
    | ones width' =>
      simp only [toList_name_ones, List.append_assoc, List.append_cancel_left_eq] at h
      rw [toList_toString_inj (append_cons_inj (hbracket _) (hbracket _) h).1]

/-- All names of constants have the same part before the dot. -/
theorem exists_toList_bitName (key : ConstantKey) (i : Nat) :
    ∃ c rest, c ≠ 'z' ∧ (s!"{key.name}[{i}]").toList = "const".toList ++ '.' :: c :: rest := by
  rw [toList_bitName]
  cases key with
  | literal value width => exact ⟨'0', _, by decide, by rw [toList_name_literal]; rfl⟩
  | ones width => exact ⟨'o', _, by decide, by rw [toList_name_ones]; rfl⟩

theorem bitName_ne_zero (key : ConstantKey) (i : Nat) : s!"{key.name}[{i}]" ≠ "const.zero" := by
  intro h
  obtain ⟨c, rest, hc, hconst⟩ := key.exists_toList_bitName i
  rw [h] at hconst
  obtain ⟨hz, -⟩ : 'z' = c ∧ _ := by simpa using hconst
  exact hc hz.symm

end ConstantKey

namespace Design

/-! ## Names in use -/

/-- A kind of block, which is the first part of the names of its scopes. -/
def IsKind (kind : String) : Prop := ∀ c ∈ kind.toList, c ≠ '.' ∧ c.isDigit = false

instance (kind : String) : Decidable (IsKind kind) :=
  List.decidableBAll (fun c => c ≠ '.' ∧ c.isDigit = false) kind.toList

/-- The scope of a block that was reserved. -/
def Opened (d : Design) (scope : String) : Prop :=
  ∃ kind n, IsKind kind ∧ n < d.scopes ∧ scope = kind ++ toString n

/-- Where a name comes from that is in use: a caller chose it, or it is one in a scope that was
reserved, or a constant that was made has it. -/
inductive Issued (d : Design) : String → Prop
  | chosen {name : String} : '.' ∉ name.toList → Issued d name
  | reserved {scope : String} (role : String) : d.Opened scope → Issued d (scopedName scope role)
  | zero : d.zero.isSome = true → Issued d "const.zero"
  | constant {key : ConstantKey} (i : Nat) : (d.constants.lookup key).isSome = true →
      Issued d s!"{key.name}[{i}]"

/-- Construction and its callers keep to their own names. -/
def Tidy (d : Design) : Prop := ∀ name ∈ d.names, d.Issued name

variable {d d' : Design}

theorem Tidy.new (settings : DesignSettings) : Tidy (.new settings) :=
  fun _ hname => absurd hname Std.TreeMap.not_mem_emptyc

theorem Issued.mono {name : String} (h : d.Issued name) (hscopes : d.scopes ≤ d'.scopes)
    (hzero : d.zero.isSome = true → d'.zero.isSome = true)
    (hconstants : ∀ key, (d.constants.lookup key).isSome = true → (d'.constants.lookup key).isSome = true) :
    d'.Issued name := by
  cases h with
  | chosen hdot => exact .chosen hdot
  | reserved role hopen =>
    obtain ⟨kind, n, hkind, hn, hscope⟩ := hopen
    exact .reserved role ⟨kind, n, hkind, by omega, hscope⟩
  | zero hz => exact .zero (hzero hz)
  | constant i hkey => exact .constant i (hconstants _ hkey)

/-- Scopes and constants may be added, and names that come from somewhere. -/
theorem Tidy.mono (h : d.Tidy) (hscopes : d.scopes ≤ d'.scopes) (hzero : d.zero.isSome = true → d'.zero.isSome = true)
    (hconstants : ∀ key, (d.constants.lookup key).isSome = true → (d'.constants.lookup key).isSome = true)
    (hnames : ∀ name ∈ d'.names, name ∈ d.names ∨ d'.Issued name) : d'.Tidy :=
  fun name hname => (hnames name hname).elim (fun hold => (h name hold).mono hscopes hzero hconstants) id

theorem Tidy.of_names (h : d.Tidy) (hnames : d'.names = d.names) (hscopes : d'.scopes = d.scopes)
    (hzero : d'.zero = d.zero) (hconstants : d'.constants = d.constants) : d'.Tidy :=
  h.mono (Nat.le_of_eq hscopes.symm) (hzero ▸ id) (fun _ => hconstants ▸ id) fun _ hname => .inl (hnames ▸ hname)

theorem mem_names_pushSignal {info : SignalInfo} {name : String} :
    name ∈ (d.pushSignal info).names ↔ name = info.name ∨ name ∈ d.names := by
  show name ∈ d.names.insert info.name _ ↔ _
  rw [Std.TreeMap.mem_insert, Std.LawfulEqCmp.compare_eq_iff_eq, @eq_comm _ info.name]

theorem Tidy.pushSignal (h : d.Tidy) {info : SignalInfo} (hissued : d.Issued info.name) :
    (d.pushSignal info).Tidy := by
  refine h.mono (Nat.le_refl _) id (fun _ => id) fun name hmem => ?_
  rcases mem_names_pushSignal.mp hmem with rfl | hold
  · exact .inr (hissued.mono (Nat.le_refl _) id fun _ => id)
  · exact .inl hold

/-! ## Names that are free -/

theorem toList_scopedName (kind : String) (n : Nat) (role : String) :
    (scopedName (kind ++ toString n) role).toList = (kind.toList ++ (toString n).toList) ++ '.' :: role.toList := by
  simp [scopedName]

/-- The bits of a register in a scope have names in the scope. -/
theorem bitName_scopedName (scope role : String) (j : Nat) :
    scopedName scope s!"{role}[{j}]" = s!"{scopedName scope role}[{j}]" := by
  show scope ++ "." ++ (role ++ "[" ++ toString j ++ "]") = scope ++ "." ++ role ++ "[" ++ toString j ++ "]"
  simp only [String.append_assoc]

theorem IsKind.dot_notMem {kind : String} (h : IsKind kind) (n : Nat) : '.' ∉ kind.toList ++ (toString n).toList := by
  intro hmem
  rcases List.mem_append.mp hmem with hmem | hmem
  · exact (h _ hmem).1 rfl
  · exact absurd (isDigit_of_mem_toString hmem) (by decide)

/-- The number of a scope is what is left of its name without the kind. -/
theorem IsKind.filter_isDigit {kind : String} (h : IsKind kind) (n : Nat) :
    (kind.toList ++ (toString n).toList).filter Char.isDigit = (toString n).toList := by
  rw [List.filter_append, List.filter_eq_nil_iff.mpr fun c hc => by simp [(h c hc).2], List.nil_append,
    List.filter_eq_self.mpr fun c => isDigit_of_mem_toString]

theorem IsKind.ne_const {kind : String} (h : IsKind kind) (n : Nat) :
    kind.toList ++ (toString n).toList ≠ "const".toList := by
  intro he
  have hdigits := h.filter_isDigit n
  rw [he, toList_toString] at hdigits
  exact Nat.toDigits_ne_nil hdigits.symm

/-- A scope that was not reserved has no names in use. -/
theorem Tidy.scopedName_notMem (h : d.Tidy) {kind : String} (hkind : IsKind kind) (role : String) :
    scopedName (kind ++ toString d.scopes) role ∉ d.names := by
  intro hmem
  have hissued := h _ hmem
  generalize hname : scopedName (kind ++ toString d.scopes) role = name at hissued
  have hlist := toList_scopedName kind d.scopes role
  rw [hname] at hlist
  have hdot := hkind.dot_notMem d.scopes
  cases hissued with
  | chosen hchosen => simp [hlist] at hchosen
  | reserved role' hopen =>
    obtain ⟨kind', n, hkind', hn, rfl⟩ := hopen
    rw [toList_scopedName] at hlist
    obtain ⟨hscope, -⟩ := append_cons_inj (hkind'.dot_notMem n) hdot hlist
    have hdigits := congrArg (List.filter Char.isDigit) hscope
    rw [hkind'.filter_isDigit, hkind.filter_isDigit] at hdigits
    have := toList_toString_inj hdigits
    omega
  | zero _ =>
    obtain ⟨hscope, -⟩ := append_cons_inj (s := "const".toList) (t := "zero".toList) (by decide) hdot hlist
    exact hkind.ne_const _ hscope.symm
  | @constant key i _ =>
    obtain ⟨c, rest, -, hconst⟩ := key.exists_toList_bitName i
    obtain ⟨hscope, -⟩ := append_cons_inj (by decide) hdot (hconst.symm.trans hlist)
    exact hkind.ne_const _ hscope.symm

/-- A name of a constant is in use only if a constant has it. -/
theorem Tidy.const_mem (h : d.Tidy) {name : String} {rest : List Char}
    (hname : name.toList = "const".toList ++ '.' :: rest) (hmem : name ∈ d.names) :
    (name = "const.zero" ∧ d.zero.isSome = true) ∨
      ∃ (key : ConstantKey) (i : Nat), (d.constants.lookup key).isSome = true ∧ name = s!"{key.name}[{i}]" := by
  cases h name hmem with
  | chosen hchosen => simp [hname] at hchosen
  | reserved role hopen =>
    obtain ⟨kind, n, hkind, hn, rfl⟩ := hopen
    rw [toList_scopedName] at hname
    exact absurd (append_cons_inj (hkind.dot_notMem n) (by decide) hname).1 (hkind.ne_const n)
  | zero hz => exact .inl ⟨rfl, hz⟩
  | constant i hkey => exact .inr ⟨_, i, hkey, rfl⟩

theorem Tidy.zero_notMem (h : d.Tidy) (hz : d.zero = none) : "const.zero" ∉ d.names := by
  intro hmem
  have hname : "const.zero".toList = "const".toList ++ '.' :: "zero".toList := by decide
  rcases h.const_mem hname hmem with ⟨-, hsome⟩ | ⟨key, i, -, hname⟩
  · simp [hz] at hsome
  · exact key.bitName_ne_zero i hname.symm

theorem Tidy.constant_notMem (h : d.Tidy) {key : ConstantKey} (hkey : d.constants.lookup key = none) (i : Nat) :
    s!"{key.name}[{i}]" ∉ d.names := by
  intro hmem
  obtain ⟨c, rest, -, hconst⟩ := key.exists_toList_bitName i
  rcases h.const_mem hconst hmem with ⟨hname, -⟩ | ⟨key', j, hsome, hname⟩
  · exact key.bitName_ne_zero i hname
  · rw [← ConstantKey.eq_of_bitName hname, hkey] at hsome
    cases hsome

/-! ## Registers with free names -/

theorem addBitsFrom_names {name : String} {initial : Nat → Bool} {constant : Bool} {count : Nat} :
    ∀ {i : Nat} {bits : List SignalId} {d d' : Design}, addBitsFrom name initial constant i count d = .ok bits d' →
      ∀ x ∈ d'.names, x ∈ d.names ∨ ∃ j : Nat, x = s!"{name}[{j}]" := by
  induction count with
  | zero =>
    intro i bits d d' h x hx
    obtain ⟨-, rfl⟩ := pure_eq_ok.mp h
    exact .inl hx
  | succ count ih =>
    intro i bits d d' h x hx
    simp only [addBitsFrom, bind_eq_ok, addSignal_eq_ok, pure_eq_ok] at h
    obtain ⟨_, _, ⟨-, rfl, rfl⟩, rest, d₁, h, -, rfl⟩ := h
    rcases ih h x hx with hmem | hbit
    · exact (mem_names_pushSignal.mp hmem).symm.imp_right fun heq => ⟨i, heq⟩
    · exact .inr hbit

theorem addBitsFrom_of_notMem {name : String} {initial : Nat → Bool} {constant : Bool} {count : Nat} :
    ∀ {i : Nat} {d : Design}, (∀ j, i ≤ j → s!"{name}[{j}]" ∉ d.names) →
      ∃ bits d', addBitsFrom name initial constant i count d = .ok bits d' := by
  induction count with
  | zero => exact fun {i d} _ => ⟨[], d, rfl⟩
  | succ count ih =>
    intro i d hfree
    -- The bits that follow stay free: the name that was taken has another index.
    have hrest : ∀ j, i + 1 ≤ j → s!"{name}[{j}]" ∉ (d.pushSignal ⟨s!"{name}[{i}]", initial i, constant⟩).names := by
      intro j hj hmem
      rcases mem_names_pushSignal.mp hmem with heq | hold
      · have := bitName_inj heq
        omega
      · exact hfree j (by omega) hold
    obtain ⟨bits, d', hbits⟩ := ih hrest
    refine ⟨⟨d.signals.size⟩ :: bits, d', ?_⟩
    simp only [addBitsFrom, bind_eq_ok, addSignal_eq_ok, pure_eq_ok]
    exact ⟨_, _, ⟨hfree i (Nat.le_refl i), rfl, rfl⟩, bits, d', hbits, rfl, rfl⟩

theorem addBits_names {name : String} {width : Nat} {initial : Nat → Bool} {constant : Bool} {r : Register}
    (h : addBits name width initial constant d = .ok r d') :
    ∀ x ∈ d'.names, x ∈ d.names ∨ ∃ j : Nat, x = s!"{name}[{j}]" := by
  simp only [addBits, bind_eq_ok, pure_eq_ok] at h
  obtain ⟨bits, _, h, -, rfl⟩ := h
  exact addBitsFrom_names h

/-- A register is made if all its names are free. -/
theorem addBits_of_notMem {name : String} (hfree : ∀ j : Nat, s!"{name}[{j}]" ∉ d.names) (width : Nat)
    (initial : Nat → Bool) (constant : Bool) : ∃ r d', addBits name width initial constant d = .ok r d' := by
  obtain ⟨bits, d', hbits⟩ := addBitsFrom_of_notMem fun j _ => hfree j
  exact ⟨⟨name, bits⟩, d', bind_eq_ok.mpr ⟨bits, d', hbits, rfl⟩⟩

end Design

end SignalGraph
