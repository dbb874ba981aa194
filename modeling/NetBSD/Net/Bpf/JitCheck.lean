import NetBSD.Net.Bpf.JitInit

/-!
Owns the execution of a program with the bounds checks that `optimize` computes,
on a contiguous packet: the loads of `generate_insn_code`, and what a run shows
to the rest of the kernel. Every instruction but a packet load is the
interpreter's. A read at or beyond the end of the packet is a fault.
-/

namespace NetBSD.Net.Bpf

open NetBSD.Machine FilterState Step

universe u

section Checked

variable {World : Type u} (target : Target) (bc : Option (BpfCtx World)) (f : List BpfInsn)
  (p : Nat → UInt8)

/-- `extwords` of `generate_insn_code`. -/
def extwords : Nat :=
  match bc with
  | some ctx => ctx.extwords
  | none => 0

def packetRead (size : Size) (buflen k : Nat) : Option UInt32 :=
  if buflen < k + size.width then none else some (extract size p k)

def FilterState.readA (s : FilterState World) :
    Option UInt32 → Step (FilterState World) (Outcome World)
  | some value => s.setA (some value)
  | none => .done .fault

def FilterState.readX (s : FilterState World) :
    Option UInt32 → Step (FilterState World) (Outcome World)
  | some value => s.setX (some value)
  | none => .done .fault

/-- The read of `emit_pkt_read`, which is not emitted where `k` plus the width wraps. -/
def emitRead (size : Size) (buflen k offset : Nat) (s : FilterState World) :
    Step (FilterState World) (Outcome World) :=
  if k ≤ uint32Max - size.width + 1 then s.readA (packetRead p size buflen (offset + k))
  else s.setA (some s.a)

/-- `buflen - (pc->k + width)`, the sum in 32 bits and the difference in 64. -/
def slack (size : Size) (buflen k : Nat) : Nat :=
  (buflen + 2 ^ 64 - (k + size.width) % 2 ^ 32) % 2 ^ 64

def emitLoad (buflen : Nat) (s : FilterState World) (insn : BpfInsn) :
    Op → Step (FilterState World) (Outcome World)
  | .ldAbs size => emitRead p size buflen insn.k.toNat 0 s
  | .ldInd size =>
    if slack size buflen insn.k.toNat < s.x.toNat then s.ret 0
    else emitRead p size buflen insn.k.toNat s.x.toNat s
  | .ldxMsh =>
    s.readX ((packetRead p .b buflen insn.k.toNat).map fun byte : UInt32 => (byte &&& 0xf) <<< 2)
  | op => execOp target bc p s insn op

/-- The check that `generate_insn_code` emits before a packet load; `buflen` is not zero. -/
def checkedOp (buflen : Nat) (rdata : ReadPktData) (s : FilterState World) (insn : BpfInsn)
    (op : Op) : Step (FilterState World) (Outcome World) :=
  if (readPktInsn insn).isSome then
    if uint32Max < rdata.check_length then s.ret 0
    else if 0 < rdata.check_length ∧ buflen < rdata.check_length then s.ret 0
    else emitLoad target bc p buflen s insn op
  else execOp target bc p s insn op

/-- One instruction of the generated code. `buflen` is loaded once, in the prologue. -/
def checkedStep (dat : Nat → InsnData) (buflen : Nat) (s : FilterState World) :
    Step (FilterState World) (Outcome World) :=
  match f[s.pc]? with
  | none => .done .fault
  | some insn =>
    match Op.decode insn.code with
    | none => s.ret 0
    | some op => checkedOp target bc p buflen (dat s.pc).rdata s insn op

/-! ### What a run shows -/

/-- A coprocessor call, or a store to external memory. -/
inductive Event (World : Type u) where
  | call (index : Nat) (world : World) (args : BpfArgs) (a : UInt32)
  | store (k : UInt32) (value : UInt32)

/-- What an instruction that moves on shows. -/
def opEvents (s : FilterState World) (insn : BpfInsn) : Op → List (Event World)
  | .cop => [.call insn.k.toNat s.world s.args s.a]
  | .copx => [.call s.x.toNat s.world s.args s.a]
  | .st => if extwords bc ≠ 0 then [.store insn.k s.a] else []
  | .stx => if extwords bc ≠ 0 then [.store insn.k s.x] else []
  | _ => []

def events (s : FilterState World) : List (Event World) :=
  match f[s.pc]? with
  | none => []
  | some insn =>
    match Op.decode insn.code with
    | none => []
    | some op => opEvents bc s insn op

/-- A run and what it has shown. -/
structure Logged (World : Type u) where
  state : FilterState World
  log : List (Event World)

def loggedStep (step : FilterState World → Step (FilterState World) (Outcome World))
    (s : Logged World) : Step (Logged World) (Outcome World × List (Event World)) :=
  match step s.state with
  | .next after => .next ⟨after, s.log ++ events bc f s.state⟩
  | .done outcome => .done (outcome, s.log)

def plainRun : Nat → Logged World → Option (Outcome World × List (Event World)) :=
  run (loggedStep bc f (filterStep target bc f p))

def checkedRun (dat : Nat → InsnData) (buflen : Nat) :
    Nat → Logged World → Option (Outcome World × List (Event World)) :=
  run (loggedStep bc f (checkedStep target bc f p dat buflen))

/-- The coprocessor functions leave `args->buflen` as it is. -/
def CopsKeepBuflen : Prop :=
  ∀ ctx table, bc = some ctx → ctx.copfuncs = some table → ∀ index world args a,
    (table index world args a).args.buflen = args.buflen

end Checked

section Log

variable {World : Type u} {target : Target} {bc : Option (BpfCtx World)} {f : List BpfInsn}
  {p : Nat → UInt8} {s s' : FilterState World}

theorem loggedStep_next {step : FilterState World → Step (FilterState World) (Outcome World)}
    (moved : step s = .next s') (log : List (Event World)) :
    loggedStep bc f step ⟨s, log⟩ = .next ⟨s', log ++ events bc f s⟩ := by
  simp only [loggedStep, moved]

theorem loggedStep_done {step : FilterState World → Step (FilterState World) (Outcome World)}
    {out : Outcome World} (stop : step s = .done out) (log : List (Event World)) :
    loggedStep bc f step ⟨s, log⟩ = .done (out, log) := by
  simp only [loggedStep, stop]

theorem run_loggedStep {step : FilterState World → Step (FilterState World) (Outcome World)}
    {fuel : Nat} {log shown : List (Event World)} {out : Outcome World}
    (fin : run (loggedStep bc f step) fuel ⟨s, log⟩ = some (out, shown)) :
    run step fuel s = some out := by
  induction fuel generalizing s log with
  | zero => cases fin
  | succ fuel ih =>
    cases taken : step s with
    | next s' =>
      rw [run_next (loggedStep_next taken log)] at fin
      rw [run_next taken]
      exact ih fin
    | done outcome' =>
      rw [run_done (loggedStep_done taken log)] at fin
      rw [run_done taken, (Prod.mk.inj (Option.some.inj fin)).1]

end Log

/-! ### Loads -/

def Op.packetSize : Op → Option Size
  | .ldAbs size | .ldInd size => some size
  | .ldxMsh => some .b
  | _ => none

def CheckFails (buflen length : Nat) : Prop := uint32Max < length ∨ buflen < length

theorem CheckFails.mono {buflen lt longer : Nat} (fails : CheckFails buflen lt)
    (below : lt ≤ longer) : CheckFails buflen longer :=
  fails.imp (lt_of_lt_of_le · below) (lt_of_lt_of_le · below)

/-- The packets on which the checks are the interpreter's: those below 4 GiB, or all of them when
the program has no `BPF_IND` and no load beyond 4 GiB. -/
def ChecksExact (f : List BpfInsn) (buflen : Nat) : Prop :=
  buflen ≤ uint32Max ∨
    ∀ insn ∈ f, longLoad insn = false ∧ ∀ size, Op.decode insn.code ≠ some (.ldInd size)

section Load

variable {World : Type u} {target : Target} {bc : Option (BpfCtx World)} {p : Nat → UInt8}
  {s : FilterState World} {insn : BpfInsn} {op : Op} {size : Size}

theorem readPktInsn_of_decode (dec : Op.decode insn.code = some op) :
    readPktInsn insn = op.packetSize.map fun size => insn.k.toNat + size.width := by
  have code := Op.code_of_decode dec
  unfold readPktInsn readWidth
  rw [← code]
  cases op with
  | ldAbs size | ldInd size =>
    cases size <;> simp +decide only [Op.packetSize, ↓reduceIte, Option.map, Size.width]
  | jmp op src => cases op <;> cases src <;> simp +decide only [Op.packetSize, ↓reduceIte, Option.map]
  | alu op src => cases op <;> cases src <;> simp +decide only [Op.packetSize, ↓reduceIte, Option.map]
  | _ => simp +decide only [Op.packetSize, ↓reduceIte, Option.map, Size.width]

theorem extract_of_fits {k : UInt32} (fits : k.toNat + size.width ≤ s.args.buflen) :
    ldAbs size p s.args k = some (extract size p k.toNat) := by
  unfold ldAbs
  cases size with
  | w | h | b =>
    simp only [Size.width] at fits
    simp only [Bool.or_eq_true, decide_eq_true_eq]
    rw [if_neg (by omega)]

theorem ldAbs_none {k : UInt32} (pos : s.args.buflen ≠ 0)
    (short : s.args.buflen < k.toNat + size.width) : ldAbs size p s.args k = none := by
  unfold ldAbs
  cases size with
  | w | h | b =>
    simp only [Size.width] at short
    simp only [Bool.or_eq_true, decide_eq_true_eq]
    rw [if_pos (by omega), if_pos pos]

theorem ldxMsh_eq (k : UInt32) (pos : s.args.buflen ≠ 0) : ldxMsh p s.args k =
      (ldAbs .b p s.args k).map fun byte : UInt32 => (byte &&& 0xf) <<< 2 := by
  unfold ldxMsh ldAbs
  simp only [decide_eq_true_eq]
  by_cases short : s.args.buflen ≤ k.toNat
  · rw [if_pos short, if_pos short, if_pos pos, if_pos pos]
    rfl
  · rw [if_neg short, if_neg short]
    rfl

theorem ldInd_eq {x imm : UInt32} (pos : s.args.buflen ≠ 0)
    (below : s.args.buflen ≤ uint32Max) :
    ldInd size p s.args x imm = if s.args.buflen < x.toNat + imm.toNat + size.width then none
      else some (extract size p (x.toNat + imm.toNat)) := by
  have sum : (x + imm).toNat = (x.toNat + imm.toNat) % 2 ^ 32 := UInt32.toNat_add x imm
  have xBelow := x.toNat_lt
  have immBelow := imm.toNat_lt
  unfold uint32Max at below
  unfold ldInd
  by_cases short : s.args.buflen < x.toNat + imm.toNat + size.width
  · rw [if_pos short]
    cases size with
    | w | h | b =>
      simp only [Size.width] at short
      simp only [Bool.or_eq_true, decide_eq_true_eq, UInt32.lt_iff_toNat_lt]
      rw [if_pos (by omega), if_pos (.inr pos)]
  rw [if_neg short]
  cases size with
  | w | h | b =>
    simp only [Size.width] at short
    simp only [Bool.or_eq_true, decide_eq_true_eq, UInt32.lt_iff_toNat_lt, sum]
    rw [if_neg (by omega), Nat.mod_eq_of_lt (by omega)]

theorem execOp_checkFails (isLoad : op.packetSize = some size) (pos : s.args.buflen ≠ 0)
    (fails : CheckFails s.args.buflen (insn.k.toNat + size.width))
    (bnd : s.args.buflen ≤ uint32Max ∨
      insn.k.toNat + size.width ≤ uint32Max ∧ ∀ size, op ≠ .ldInd size) :
    execOp target bc p s insn op = s.ret 0 := by
  have short : s.args.buflen < insn.k.toNat + size.width := by
    unfold CheckFails at fails
    omega
  cases op with
  | ldAbs size' =>
    cases isLoad
    rw [execOp, ldAbs_none pos short]
    rfl
  | ldxMsh =>
    cases isLoad
    rw [execOp, ldxMsh_eq _ pos, ldAbs_none pos short]
    rfl
  | ldInd size' =>
    cases isLoad
    have below : s.args.buflen ≤ uint32Max :=
      bnd.resolve_right fun oth => oth.2 size rfl
    rw [execOp, ldInd_eq pos below, if_pos (by omega)]
    rfl
  | _ => cases isLoad

theorem emitLoad_eq (isLoad : op.packetSize = some size) (pos : s.args.buflen ≠ 0)
    (holds : ¬ CheckFails s.args.buflen (insn.k.toNat + size.width))
    (bnd : s.args.buflen ≤ uint32Max ∨ ∀ size, op ≠ .ldInd size) :
    emitLoad target bc p s.args.buflen s insn op = execOp target bc p s insn op := by
  obtain ⟨inReach, fits⟩ := not_or.mp holds
  rw [not_lt] at inReach fits
  have emitted : insn.k.toNat ≤ uint32Max - size.width + 1 := by omega
  cases op with
  | ldAbs size' =>
    cases isLoad
    rw [emitLoad, emitRead, if_pos emitted, packetRead, zero_add,
      if_neg (not_lt.mpr fits), execOp, extract_of_fits fits]
    rfl
  | ldxMsh =>
    cases isLoad
    rw [emitLoad, packetRead, if_neg (not_lt.mpr fits), execOp, ldxMsh_eq _ pos,
      extract_of_fits fits]
    rfl
  | ldInd size' =>
    cases isLoad
    have below : s.args.buflen ≤ uint32Max := bnd.resolve_right fun oth => oth size rfl
    have left : slack size s.args.buflen insn.k.toNat =
        s.args.buflen - (insn.k.toNat + size.width) := by
      unfold slack
      unfold uint32Max at below inReach
      omega
    rw [emitLoad, emitRead, if_pos emitted, packetRead, execOp, ldInd_eq pos below]
    by_cases short : s.args.buflen < s.x.toNat + insn.k.toNat + size.width
    · rw [if_pos (by omega), if_pos short]
      rfl
    · rw [if_neg (by omega), if_neg short]
      rfl
  | _ => cases isLoad

end Load

/-! ### One step of either machine -/

/-- An opcode that neither returns nor is seen outside. -/
def Op.quiet (extwords : Nat) : Op → Bool
  | .retK | .retA | .cop | .copx => false
  | .st | .stx => extwords == 0
  | _ => true

section Steps

variable {World : Type u} {target : Target} {bc : Option (BpfCtx World)} {f : List BpfInsn}
  {p : Nat → UInt8} {s s' : FilterState World} {insn : BpfInsn} {op : Op}

theorem execOp_frame (moved : execOp target bc p s insn op = .next s') (noCop : op ≠ .cop)
    (noCopx : op ≠ .copx) : s'.args.buflen = s.args.buflen ∧ s'.world = s.world := by
  cases op with
  | retK | retA => cases moved
  | cop => exact absurd rfl noCop
  | copx => exact absurd rfl noCopx
  | ja | jmp _ _ | st | stx =>
    cases moved
    exact ⟨rfl, rfl⟩
  | alu test src =>
    cases src with
    | k | x =>
      rw [execOp] at moved
      split at moved
      · cases moved
      · obtain ⟨_, _, rfl⟩ := setA_next moved
        exact ⟨rfl, rfl⟩
  | ldxLen | ldxMsh | ldxImm | ldxMem | tax =>
    rw [execOp] at moved
    obtain ⟨_, _, rfl⟩ := setX_next moved
    exact ⟨rfl, rfl⟩
  | ldAbs _ | ldInd _ | ldLen | ldImm | ldMem | neg | txa =>
    rw [execOp] at moved
    obtain ⟨_, _, rfl⟩ := setA_next moved
    exact ⟨rfl, rfl⟩

theorem FilterState.cop_buflen (keeps : CopsKeepBuflen bc) {index : UInt32}
    (moved : s.cop bc index = .next s') : s'.args.buflen = s.args.buflen := by
  unfold cop at moved
  split at moved
  · cases moved
  rename_i ctx
  split at moved
  · split at moved
    · cases moved
    · rename_i table isTable
      cases moved
      exact keeps ctx table rfl isTable _ _ _ _
  · cases moved

theorem filterStep_of_decode (fnd : f[s.pc]? = some insn)
    (dec : Op.decode insn.code = some op) :
    filterStep target bc f p s = execOp target bc p s insn op := by
  simp only [filterStep, fnd, dec]

theorem filterStep_buflen (keeps : CopsKeepBuflen bc) (fnd : f[s.pc]? = some insn)
    (dec : Op.decode insn.code = some op)
    (moved : filterStep target bc f p s = .next s') : s'.args.buflen = s.args.buflen := by
  rw [filterStep_of_decode fnd dec] at moved
  by_cases isCop : op = .cop
  · subst isCop
    exact cop_buflen keeps moved
  · by_cases isCopx : op = .copx
    · subst isCopx
      exact cop_buflen keeps moved
    · exact (execOp_frame moved isCop isCopx).1

/-- An instruction that stops returns, a failed load with zero. -/
theorem execOp_done {out : Outcome World}
    (stop : execOp target bc p s insn op = .done out) (noFault : out ≠ .fault) :
    ∃ v, out = .ret v s.args s.world ∧ (op ≠ .retK → op ≠ .retA → v = 0) := by
  have setA : ∀ loaded, s.setA loaded = .done out → out = .ret 0 s.args s.world := by
    intro loaded stop
    cases loaded with
    | none => exact (done.inj stop).symm
    | some _ => cases stop
  have setX : ∀ loaded, s.setX loaded = .done out → out = .ret 0 s.args s.world := by
    intro loaded stop
    cases loaded with
    | none => exact (done.inj stop).symm
    | some _ => cases stop
  have cop : ∀ index, s.cop bc index = .done out → out = .ret 0 s.args s.world := by
    intro index stop
    unfold cop at stop
    split at stop
    · exact absurd (done.inj stop).symm noFault
    · split at stop
      · split at stop
        · exact absurd (done.inj stop).symm noFault
        · cases stop
      · exact (done.inj stop).symm
  cases op with
  | retK => exact ⟨_, (done.inj stop).symm, fun oth => absurd rfl oth⟩
  | retA => exact ⟨_, (done.inj stop).symm, fun _ oth => absurd rfl oth⟩
  | ja | jmp _ _ | st | stx => cases stop
  | cop | copx => exact ⟨0, cop _ stop, fun _ _ => rfl⟩
  | alu test src =>
    cases src with
    | k =>
      rw [execOp] at stop
      split at stop
      · exact absurd (done.inj stop).symm noFault
      · exact ⟨0, setA _ stop, fun _ _ => rfl⟩
    | x =>
      rw [execOp] at stop
      split at stop
      · exact ⟨0, (done.inj stop).symm, fun _ _ => rfl⟩
      · exact ⟨0, setA _ stop, fun _ _ => rfl⟩
  | ldxLen | ldxMsh | ldxImm | ldxMem | tax =>
    rw [execOp] at stop
    exact ⟨0, setX _ stop, fun _ _ => rfl⟩
  | ldAbs _ | ldInd _ | ldLen | ldImm | ldMem | neg | txa =>
    rw [execOp] at stop
    exact ⟨0, setA _ stop, fun _ _ => rfl⟩

theorem opEvents_quiet (quiet : op.quiet (extwords bc) = true) : opEvents bc s insn op = [] := by
  cases op with
  | retK | retA | cop | copx => cases quiet
  | st | stx =>
    have zero : extwords bc = 0 := beq_iff_eq.mp quiet
    rw [opEvents, if_neg (not_not.mpr zero)]
  | _ => rfl

theorem events_of_decode (fnd : f[s.pc]? = some insn)
    (dec : Op.decode insn.code = some op) : events bc f s = opEvents bc s insn op := by
  simp only [events, fnd, dec]

theorem filterStep_quiet (flow : DataFlow bc f) (fnd : f[s.pc]? = some insn)
    (dec : Op.decode insn.code = some op) (quiet : op.quiet (extwords bc) = true) :
    filterStep target bc f p s = s.ret 0 ∨
      ∃ s', filterStep target bc f p s = .next s' ∧ s'.pc ∈ succs s.pc insn ∧
        s'.args.buflen = s.args.buflen ∧ s'.world = s.world ∧ events bc f s = [] := by
  have rng : s.pc < f.length := (getElem?_eq_some_iff.mp fnd).1
  have noFault : filterStep target bc f p s ≠ .done .fault := filterStep_ne_fault flow rng
  cases taken : filterStep target bc f p s with
  | done out =>
    left
    rw [taken] at noFault
    rw [filterStep_of_decode fnd dec] at taken
    obtain ⟨v, rfl, zero⟩ := execOp_done taken fun fault => noFault (congrArg done fault)
    rw [zero (by rintro rfl; cases quiet) (by rintro rfl; cases quiet)]
    rfl
  | next s' =>
    right
    obtain ⟨insn', hit', nxt⟩ := filterStep_next taken
    obtain rfl := Option.some.inj (fnd.symm.trans hit')
    rw [filterStep_of_decode fnd dec] at taken
    obtain ⟨eqLen, sameWorld⟩ := execOp_frame taken (by rintro rfl; cases quiet)
      (by rintro rfl; cases quiet)
    refine ⟨s', rfl, nxt, eqLen, sameWorld, ?_⟩
    rw [events_of_decode fnd dec, opEvents_quiet quiet]

end Steps

end NetBSD.Net.Bpf
