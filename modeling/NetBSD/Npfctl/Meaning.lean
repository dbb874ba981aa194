import NetBSD.Net.Npf.Bpf
import NetBSD.Npfctl.Lists

/-!
Owns the step from segments to the kernel: the view that a packet gives, and that
the interpreter returns what the segment semantics returns on a packet that is long
enough for every load of the program.
-/

namespace NetBSD.Npfctl

open NetBSD.Net.Bpf NetBSD.Machine List Option

variable {Addr : Type}

/-- The load of an instruction succeeds. An indirect load is one from behind the
layer 4 offset. -/
def Loads (args : BpfArgs) (insn : BpfInsn) : Prop :=
  match Op.decode insn.code with
  | some (.ldAbs size) => (ldAbs size args.pkt.bytes args insn.k).isSome = true
  | some (.ldInd size) =>
    (ldInd size args.pkt.bytes args (args.mem bpfMwL4off.toNat) insn.k).isSome = true
  | _ => True

instance (args : BpfArgs) (insn : BpfInsn) : Decidable (Loads args insn) := by
  unfold Loads
  split <;> infer_instance

def LongEnough (args : BpfArgs) (code : List BpfInsn) : Prop := ∀ insn ∈ code, Loads args insn

def viewOf (args : BpfArgs) (kernel : Net.Npf.Kernel Addr) : View where
  mem := args.mem
  word k := (ldAbs .w args.pkt.bytes args k).getD 0
  l4 size k := (ldInd size args.pkt.bytes args (args.mem bpfMwL4off.toNat) k).getD 0
  lookup := Net.Npf.tableLookup kernel

section Interpreter

variable (target : Target) {f : List BpfInsn} {args : BpfArgs} {kernel : Net.Npf.Kernel Addr}

/-- A state of the interpreter whose packet is untouched. -/
def stateAt (args : BpfArgs) (kernel : Net.Npf.Kernel Addr) (pc : Nat) (r : Regs) :
    FilterState (Net.Npf.Kernel Addr) :=
  ⟨pc, r.a, r.x, args, kernel⟩

/-- One instruction of the interpreter does what its effect says. -/
def Follows (args : BpfArgs) (kernel : Net.Npf.Kernel Addr) (pc : Nat) :
    Effect → Step (FilterState (Net.Npf.Kernel Addr)) (Outcome (Net.Npf.Kernel Addr)) → Prop
  | .next after skip, step => step = .next (stateAt args kernel (pc + 1 + skip) after)
  | .stop value, step => step = .done (.ret value args kernel)

/-- An instruction does to the registers what its effect says. -/
theorem filterStep_effect {pc : Nat} {r : Regs} {insn : BpfInsn} (here : f[pc]? = some insn)
    (loads : Loads args insn) {taken : Effect}
    (moves : effect (viewOf args kernel) r insn = some taken) : Follows args kernel pc taken
      (filterStep target (some Net.Npf.npfBpfctx) f args.pkt.bytes (stateAt args kernel pc r)) := by
  unfold filterStep
  simp only [stateAt, here]
  unfold effect at moves
  unfold Loads at loads
  cases decoded : Op.decode insn.code with
  | none => simp [decoded] at moves
  | some op =>
    rw [decoded] at moves loads
    cases op with
    | retK | ldMem | ldxMem | ldImm =>
      obtain rfl := some.inj moves
      rfl
    | ldAbs size =>
      cases size with
      | w =>
        obtain rfl := some.inj moves
        obtain ⟨v, loaded⟩ := isSome_iff_exists.mp loads
        simp only [execOp, loaded, viewOf]
        rfl
      | h | b => simp at moves
    | ldInd size =>
      by_cases atL4 : r.x = (viewOf args kernel).l4off
      · simp only [if_pos atL4] at moves
        obtain rfl := some.inj moves
        obtain ⟨v, loaded⟩ := isSome_iff_exists.mp loads
        have atX : r.x = args.mem bpfMwL4off.toNat := atL4
        simp only [execOp, atX, loaded, viewOf]
        rfl
      · simp [atL4] at moves
    | alu op src =>
      cases src with
      | x => cases op <;> simp at moves
      | k =>
        cases op <;> first
          | (obtain rfl := some.inj moves
             rfl)
          | simp at moves
    | cop =>
      by_cases isTable : insn.k = npfCopTable
      · simp only [if_pos isTable] at moves
        obtain rfl := some.inj moves
        simp only [execOp, isTable]
        rfl
      · simp [isTable] at moves
    | jmp op src =>
      cases src with
      | x => simp at moves
      | k =>
        obtain rfl := some.inj moves
        rfl
    | _ => simp at moves

/-- A program runs as its effects say. -/
theorem run_exec (long : LongEnough args f) {pc : Nat} {r : Regs} {v : UInt32}
    (ret : exec (viewOf args kernel) (f.drop pc) r = .returned v) :
    run (filterStep target (some Net.Npf.npfBpfctx) f args.pkt.bytes) (f.length - pc)
      (stateAt args kernel pc r) = some (.ret v args kernel) := by
  induction left : f.length - pc using Nat.strong_induction_on generalizing pc r with
  | _ left ih =>
    subst left
    by_cases lt : pc < f.length
    · have here : f[pc]? = some f[pc] := getElem?_eq_getElem lt
      obtain ⟨fuel, suff⟩ : ∃ fuel, f.length - pc = fuel + 1 := ⟨f.length - pc - 1, by omega⟩
      rw [drop_eq_getElem_cons lt] at ret
      rw [suff]
      cases taken : effect (viewOf args kernel) r f[pc] with
      | none =>
        rw [exec_none taken] at ret
        cases ret
      | some effect =>
        have follows := filterStep_effect target here (long _ (getElem_mem lt)) taken
        cases effect with
        | stop res =>
          rw [exec_stop taken] at ret
          cases ret
          exact run_done follows
        | next s' skip =>
          rw [exec_next taken, drop_drop] at ret
          split at ret
          · cases ret
          split at ret
          · rw [run_next follows]
            have moved := ih (f.length - (pc + 1 + skip)) (by omega) ret rfl
            exact run_mono moved (by omega)
          · cases ret
    · rw [drop_of_length_le (by omega), exec_nil] at ret
      cases ret

end Interpreter

/-!
### What a rule means

The meaning of a rule and its comparison with the program that the compiler
produces for it. A group of several blocks accepts at the first compare that holds, so
a list of several CIDRs or port ranges over-matches where an element needs more than
one compare; an element of prefix length zero is left out of its list, which then
under-matches, and a list all of whose elements are left out accepts everything.
-/

/-! ### The meaning of a rule -/

/-- An address matches a CIDR. A CIDR of prefix length zero holds every address. -/
def FamAddrMask.Matches (view : View) (side : Side) (fam : FamAddrMask) : Prop :=
  fam.mask = 0 ∨ (view.ipver = fam.family.version ∧ fam.Agrees view side)

/-- The packet agrees with the CIDR in at least one of the compared words. -/
def FamAddrMask.Touches (view : View) (side : Side) (fam : FamAddrMask) : Prop :=
  view.ipver = fam.family.version ∧ fam.SomeWordAgrees view side

/-- A criterion of a rule that is a list: when the packet meets it, when the code accepts
the packet although it does not, and when the code rejects it although it does. -/
structure Criterion where
  met : Prop
  excess : Prop
  deficit : Prop
  unmet_of_excess : excess → ¬ met
  met_of_deficit : deficit → met

/-- What the code does about a criterion. -/
def Criterion.Accepted (criterion : Criterion) : Prop :=
  criterion.excess ∨ (criterion.met ∧ ¬ criterion.deficit)

def compiled (family : Option Af) (list : List FamAddrMask) : List FamAddrMask :=
  list.filter fun fam => fam.Compiled family

def famsCriterion (view : View) (family : Option Af) (side : Side) (list : List FamAddrMask) :
    Criterion where
  met := list = [] ∨ ∃ fam ∈ list, fam.Matches view side
  excess := list ≠ [] ∧ (∀ fam ∈ list, ¬ fam.Matches view side) ∧ (compiled family list = [] ∨
      2 ≤ (compiled family list).length ∧ ∃ fam ∈ compiled family list, fam.Touches view side)
  deficit := (∃ fam ∈ list, fam.mask = 0) ∧ compiled family list ≠ [] ∧
    (∀ fam ∈ compiled family list, ¬ fam.Matches view side) ∧
    (2 ≤ (compiled family list).length → ∀ fam ∈ compiled family list, ¬ fam.Touches view side)
  unmet_of_excess := by
    rintro ⟨nonempty, none, -⟩ (empty | ⟨fam, member, matching⟩)
    · exact nonempty empty
    · exact none fam member matching
  met_of_deficit := by
    rintro ⟨⟨fam, member, zero⟩, -⟩
    exact Or.inr ⟨fam, member, Or.inl zero⟩

def tablesCriterion (view : View) (side : Side) (list : List TableId) : Criterion where
  met := list = [] ∨ ∃ table ∈ list, table.Found view side
  excess := False
  deficit := False
  unmet_of_excess := False.elim
  met_of_deficit := False.elim

def addrsCriterion (view : View) (family : Option Af) (side : Side) : NetAddr → Criterion
  | .fams list => famsCriterion view family side list
  | .tables list => tablesCriterion view side list

def portsCriterion (view : View) (side : Side) (ranges : List PortRange) : Criterion where
  met := ranges = [] ∨ ∃ range ∈ ranges, range.Contains view side
  excess := (∀ range ∈ ranges, ¬ range.Contains view side) ∧ 2 ≤ ranges.length ∧
    ∃ range ∈ ranges, range.start ≠ range.stop
  deficit := False
  unmet_of_excess := by
    rintro ⟨none, several, -⟩ (rfl | ⟨range, member, contains⟩)
    · simp at several
    · exact none range member contains
  met_of_deficit := False.elim

def Rule.lists (rule : Rule) (view : View) : List Criterion :=
  [addrsCriterion view rule.family .src rule.srcAddr,
    addrsCriterion view rule.family .dst rule.dstAddr,
    portsCriterion view .src rule.srcPorts, portsCriterion view .dst rule.dstPorts]

def OptsMatch (view : View) : Option ProtoOpts → Prop
  | none => True
  | some (.tcpFlags tf mask) => FlagsMatch view tf mask
  | some (.icmp type code) =>
    (type ≠ notGiven → view.l4 .b 0 = type) ∧ (code ≠ notGiven → view.l4 .b 1 = code)

/-- Flags that the packet meets under the mask but the program does not find. -/
def OptsElude (view : View) : Option ProtoOpts → Prop
  | some (.tcpFlags tf mask) => OtherFlags view tf mask
  | _ => False

/-- A stateful rule with criteria implies `flags S/SAFR` for TCP packets. -/
def Rule.impliesFlags (rule : Rule) : Prop :=
  rule.stateful = true ∧ ¬ rule.isNull = true ∧
    (rule.op.proto = notGiven ∨ (rule.op.proto = ipprotoTcp ∧ rule.op.opts = none))

/-- Ports without a protocol imply TCP or UDP. -/
def Rule.impliesTcpudp (rule : Rule) : Prop :=
  (rule.srcPorts ≠ [] ∨ rule.dstPorts ≠ []) ∧ rule.op.proto = notGiven

/-- The criteria of a rule that are not lists. -/
structure Rule.Header (rule : Rule) (view : View) : Prop where
  family : rule.family.isSome = true ∨ rule.op.proto ≠ notGiven → VersionOk view rule.family
  proto : rule.op.proto ≠ notGiven → view.l4proto = rule.op.proto
  opts : OptsMatch view rule.op.opts
  flags : rule.impliesFlags → VersionOk view none ∧
    (view.l4proto = ipprotoTcp → FlagsMatch view thSyn (thSyn ||| thAck ||| thFin ||| thRst))
  tcpudp : rule.impliesTcpudp → VersionOk view none ∧
    (view.l4proto = ipprotoTcp ∨ view.l4proto = ipprotoUdp)

def Rule.Matches (rule : Rule) (view : View) : Prop :=
  rule.Header view ∧ ∀ criterion ∈ rule.lists view, criterion.met

def Rule.Accepts (rule : Rule) (view : View) : Prop :=
  rule.Header view ∧ ¬ OptsElude view rule.op.opts ∧ ∀ criterion ∈ rule.lists view, criterion.Accepted

/-- The packet is accepted in spite of a list that it does not meet. -/
def Rule.Overmatched (rule : Rule) (view : View) : Prop :=
  rule.Header view ∧ ¬ OptsElude view rule.op.opts ∧
    (∀ criterion ∈ rule.lists view, criterion.Accepted) ∧
    ∃ criterion ∈ rule.lists view, criterion.excess

/-- The packet is rejected because of its TCP flags or of a list, though it meets them. -/
def Rule.Undermatched (rule : Rule) (view : View) : Prop :=
  rule.Header view ∧ (∀ criterion ∈ rule.lists view, criterion.met) ∧
    (OptsElude view rule.op.opts ∨ ∃ criterion ∈ rule.lists view, criterion.deficit)

/-! ### Lists -/

section Criteria

variable {view : View} {family : Option Af} {side : Side}

variable {fam : FamAddrMask}

theorem mem_compiled {list : List FamAddrMask} :
    fam ∈ compiled family list ↔ fam ∈ list ∧ fam.Compiled family := by
  simp [compiled]

theorem sum_blocks (list : List FamAddrMask) :
    (list.map fun fam => (fam.element view family side).blocks).sum =
      (compiled family list).length := by
  induction list with
  | nil => rfl
  | cons fam tl ih =>
    rw [map_cons, sum_cons, ih]
    by_cases comp : fam.Compiled family
    · simp [compiled, FamAddrMask.element, comp, add_comm]
    · simp [compiled, FamAddrMask.element, comp]

theorem prefixLength_pos {af : Af} {mask : UInt8} (pos : mask ≠ 0) :
    0 < prefixLength af mask := by
  unfold prefixLength
  split
  · cases af <;> decide
  · exact pos_of_ne_zero (fun zero => pos (UInt8.toNat_inj.mp zero))

theorem FamAddrMask.Agrees.some (agree : fam.Agrees view side) (pos : fam.mask ≠ 0) :
    fam.SomeWordAgrees view side := by
  have lt : 0 < (fam.addr.words fam.family).length := by
    cases fam.family <;> simp [NpfAddr.words]
  exact ⟨0, lt, prefixLength_pos pos, agree 0 lt⟩

/-- What the group of a list of CIDRs checks, of the elements that are compiled. -/
def FamsChecked (view : View) (side : Side) (list : List FamAddrMask) : Prop :=
  (∀ fam ∈ list, view.ipver = fam.family.version) ∧
    if list.length ≤ 1 then ∀ fam ∈ list, fam.Agrees view side
    else ∃ fam ∈ list, fam.SomeWordAgrees view side

theorem famsChecked_iff (list : List FamAddrMask) :
    ((∀ fam ∈ list, (fam.element view family side).front) ∧
      if (list.map fun fam => (fam.element view family side).blocks).sum ≤ 1 then
        ∀ fam ∈ list, (fam.element view family side).all
      else ∃ fam ∈ list, (fam.element view family side).any) ↔
    FamsChecked view side (compiled family list) := by
  rw [sum_blocks]
  simp only [FamsChecked, mem_compiled, FamAddrMask.element, and_imp, and_assoc]

section OneFamily

variable {list : List FamAddrMask}

/-- The compiled elements have one family. -/
def OneFamily (family : Option Af) (list : List FamAddrMask) : Prop :=
  ∀ fam ∈ compiled family list, ∀ other ∈ compiled family list, fam.family = other.family

theorem famsChecked_of_touches (one : OneFamily family list)
    (several : 2 ≤ (compiled family list).length) (mem : fam ∈ compiled family list)
    (touches : fam.Touches view side) : FamsChecked view side (compiled family list) := by
  refine ⟨fun oth isMem => ?_, ?_⟩
  · rw [touches.1, one fam mem oth isMem]
  · rw [if_neg (by omega)]
    exact ⟨fam, mem, touches.2⟩

theorem famsChecked_of_matches (one : OneFamily family list) (mem : fam ∈ compiled family list)
    (matching : fam.Matches view side) : FamsChecked view side (compiled family list) := by
  have pos := (mem_compiled.mp mem).2.2
  obtain ⟨ver, agree⟩ := matching.resolve_left pos
  by_cases sgl : (compiled family list).length ≤ 1
  · obtain ⟨only, isOnly⟩ : ∃ only, compiled family list = [only] :=
      length_eq_one_iff.mp (by have := length_pos_of_mem mem; omega)
    rw [isOnly] at mem ⊢
    obtain rfl := mem_singleton.mp mem
    simp [FamsChecked, ver, agree]
  · exact famsChecked_of_touches one (by omega) mem ⟨ver, agree.some pos⟩

/-- An element of another family than the rule's is of another version than the packet's. -/
theorem compiled_of_version (pos : fam.mask ≠ 0)
    (ver : family.isSome = true → VersionOk view family)
    (isVersion : view.ipver = fam.family.version) : fam.Compiled family := by
  refine ⟨?_, pos⟩
  cases family with
  | none => exact Or.inl rfl
  | some given =>
    have isGiven : view.ipver = given.version := ver rfl
    rw [isGiven] at isVersion
    revert isVersion
    cases given <;> cases fam.family <;> decide

/-- The code of an address list checks what the rule says. -/
theorem famsChecked_iff_accepted (one : OneFamily family list)
    (ver : family.isSome = true → VersionOk view family) :
    FamsChecked view side (compiled family list) ↔
      (famsCriterion view family side list).Accepted := by
  constructor
  · rintro ⟨versions, body⟩
    by_cases met : (famsCriterion view family side list).met
    · refine Or.inr ⟨met, ?_⟩
      rintro ⟨-, nonempty, noneMatches, noneTouches⟩
      split at body
      · obtain ⟨fam, mem⟩ := exists_mem_of_ne_nil _ nonempty
        exact noneMatches fam mem (Or.inr ⟨versions fam mem, body fam mem⟩)
      · obtain ⟨fam, mem, touches⟩ := body
        exact noneTouches (by omega) fam mem ⟨versions fam mem, touches⟩
    have nonempty : list ≠ [] := fun empty => met (Or.inl empty)
    have noneMatches : ∀ fam ∈ list, ¬ fam.Matches view side :=
      fun fam mem matching => met (Or.inr ⟨fam, mem, matching⟩)
    refine Or.inl ⟨nonempty, noneMatches, ?_⟩
    split at body
    · refine Or.inl (eq_nil_iff_forall_not_mem.mpr fun fam mem => ?_)
      exact noneMatches fam (mem_compiled.mp mem).1
        (Or.inr ⟨versions fam mem, body fam mem⟩)
    · obtain ⟨fam, mem, touches⟩ := body
      exact Or.inr ⟨by omega, fam, mem, versions fam mem, touches⟩
  · rintro (excess | ⟨met, notUnder⟩)
    · obtain ⟨-, -, noneCompiled | ⟨several, fam, mem, touches⟩⟩ := excess
      · simp [FamsChecked, noneCompiled]
      · exact famsChecked_of_touches one several mem touches
    rcases met with rfl | ⟨fam, mem, matching⟩
    · simp [FamsChecked, compiled]
    by_cases comp : fam.Compiled family
    · exact famsChecked_of_matches one (mem_compiled.mpr ⟨mem, comp⟩) matching
    by_cases zero : fam.mask = 0
    · by_contra rejected
      refine notUnder ⟨⟨fam, mem, zero⟩, ?_, ?_, ?_⟩
      · intro noneCompiled
        exact rejected (by simp [FamsChecked, noneCompiled])
      · intro oth isMem also
        exact rejected (famsChecked_of_matches one isMem also)
      · intro several oth isMem touches
        exact rejected (famsChecked_of_touches one several isMem touches)
    · exact absurd (compiled_of_version zero ver (matching.resolve_left zero).1) comp

end OneFamily

theorem tablesChecked_iff_accepted (list : List TableId) :
    ((∀ table ∈ list, (table.element view side).front) ∧
      if (list.map fun table => (table.element view side).blocks).sum ≤ 1 then
        ∀ table ∈ list, (table.element view side).all
      else ∃ table ∈ list, (table.element view side).any) ↔
    (tablesCriterion view side list).Accepted := by
  simp only [TableId.element, tablesCriterion, Criterion.Accepted, map_const',
    sum_replicate_nat, mul_one, implies_true, true_and, false_or, not_false_eq_true, and_true]
  match list with
  | [] => simp
  | [table] => simp
  | first :: second :: rest => simp

theorem PortRange.contains_of_single {range : PortRange}
    (beg : view.port side = range.start.toUInt32) (sgl : range.start = range.stop) :
    range.Contains view side := by
  rw [PortRange.Contains, beg, ← sgl]
  exact ⟨UInt32.le_refl _, UInt32.le_refl _⟩

/-- The code of a port list checks what the rule says. -/
theorem portsChecked_iff_accepted {ranges : List PortRange}
    (ver : ranges ≠ [] → VersionOk view none) :
    ((∀ range ∈ ranges, (range.element view side).front) ∧
      if (ranges.map fun range => (range.element view side).blocks).sum ≤ 1 then
        ∀ range ∈ ranges, (range.element view side).all
      else ∃ range ∈ ranges, (range.element view side).any) ↔
    (portsCriterion view side ranges).Accepted := by
  have pre : ∀ range ∈ ranges, VersionOk view none :=
    fun range mem => ver (ne_nil_of_mem mem)
  simp only [PortRange.element, map_const', sum_replicate_nat, mul_one]
  rw [and_iff_right pre]
  by_cases few : ranges.length ≤ 1
  · rw [if_pos few]
    match ranges with
    | [] => simp [Criterion.Accepted, portsCriterion]
    | [range] => simp [Criterion.Accepted, portsCriterion]
    | first :: second :: rest => simp at few
  rw [if_neg few]
  constructor
  · rintro ⟨range, mem, touched⟩
    by_cases met : ∃ range ∈ ranges, range.Contains view side
    · exact Or.inr ⟨Or.inr met, not_false⟩
    · have no : ∀ range ∈ ranges, ¬ range.Contains view side :=
        fun oth isMem contains => met ⟨oth, isMem, contains⟩
      refine Or.inl ⟨no, by omega, range, mem, fun sgl => ?_⟩
      exact no range mem
        (PortRange.contains_of_single (touched.resolve_right (not_not.mpr sgl)) sgl)
  rintro (⟨-, -, range, mem, prop⟩ | ⟨rfl | ⟨range, mem, above, below⟩, -⟩)
  · exact ⟨range, mem, Or.inr prop⟩
  · simp at few
  · refine ⟨range, mem, ?_⟩
    by_cases sgl : range.start = range.stop
    · rw [← sgl] at below
      exact Or.inl (UInt32.le_antisymm below above)
    · exact Or.inr sgl

end Criteria

end NetBSD.Npfctl
