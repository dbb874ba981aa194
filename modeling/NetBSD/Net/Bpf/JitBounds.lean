import NetBSD.Net.Bpf.JitCheck

/-!
Owns the soundness of the bounds checks of `optimize`. The second pass computes
lengths such that a packet too short for the one of an instruction makes the
program return 0 from there unseen; the third computes the length that every
path to an instruction has checked. The generated code then runs in step with
the interpreter until a check fails, and there the interpreter returns 0 too.
-/

namespace NetBSD.Net.Bpf

open NetBSD.Machine Function List Op

universe u

/-! ### The scan of an accepted program -/

section Program

variable {World : Type u} {bc : Option (BpfCtx World)} {f : List BpfInsn} {insn : BpfInsn} {i j : Nat}

/-- What the passes rely on: the validator's edges, and the opcodes of the interpreter only. -/
structure Accepted (bc : Option (BpfCtx World)) (f : List BpfInsn) where
  dataFlow : DataFlow bc f
  decodes : ∀ insn ∈ f, ∃ op, Op.decode insn.code = some op
  short : f.length < 2 ^ 32

namespace Accepted

section

variable (accepted : Accepted bc f)

include accepted

theorem decode (fnd : f[i]? = some insn) :
    ∃ op, decode insn.code = some op :=
  accepted.decodes insn (mem_of_getElem? fnd)

theorem succs_of_jumpTargets (fnd : f[i]? = some insn)
    (jumps : isJmp insn = true) (isTarget : j ∈ jumpTargets insn i) : j ∈ succs i insn := by
  obtain ⟨op, dec⟩ := accepted.decode fnd
  have short := accepted.short
  have edge := accepted.dataFlow.edge i insn fnd
  have index : ∀ off', i + 1 + off' ∈ succs i insn → jumpIndex i off' = i + 1 + off' := by
    intro off' nxt
    exact jumpIndex_eq (lt_trans (edge _ nxt).2 short)
  rw [mem_jumpTargets] at isTarget
  rw [isJmp_of_decode dec] at jumps
  cases op with
  | ja =>
    have only : succs i insn = [i + 1 + insn.k.toNat] := by simp only [succs, dec]
    rw [jumpOffsets_ja dec, or_self, index _ (by rw [only]; exact mem_singleton.mpr rfl)]
      at isTarget
    rw [only, isTarget]
    exact mem_singleton.mpr rfl
  | jmp test src =>
    have both : succs i insn = [i + 1 + insn.jt.toNat, i + 1 + insn.jf.toNat] := by
      simp only [succs, dec]
    rw [jumpOffsets_jmp dec, index _ (by rw [both]; exact mem_cons_self),
      index _ (by rw [both]; exact mem_cons_of_mem _ (mem_singleton.mpr rfl))] at isTarget
    rw [both, mem_cons, mem_singleton]
    exact isTarget
  | _ => cases jumps

theorem jumpsTo_lt (jumps : JumpsTo f i j) : i < j ∧ j < f.length := by
  obtain ⟨insn, fnd, isJump, isTarget⟩ := jumps
  exact accepted.dataFlow.edge i insn fnd j (accepted.succs_of_jumpTargets fnd isJump isTarget)

theorem next_of_falls (falls : FallsFrom f i) : i + 1 < f.length := by
  obtain ⟨insn, fnd, more⟩ := falls
  obtain ⟨op, dec⟩ := accepted.decode fnd
  have edge := accepted.dataFlow.edge i insn fnd
  have code := code_of_decode dec
  simp only [stops, Bool.or_eq_false_iff, beq_eq_false_iff_ne] at more
  obtain ⟨⟨_, noRet⟩, noJump⟩ := more
  refine (edge (i + 1) ?_).2
  unfold succs
  rw [dec]
  cases op with
  | retK | retA => exact absurd (by rw [← code]; decide) noRet
  | ja =>
    rw [isJmp_of_decode dec, jumpOffsets_ja dec] at noJump
    have zero : insn.k.toNat = 0 := by simpa [isJump] using noJump
    rw [zero]
    exact mem_singleton.mpr rfl
  | jmp test src =>
    rw [isJmp_of_decode dec, jumpOffsets_jmp dec] at noJump
    have zero : insn.jt.toNat = 0 ∨ insn.jf.toNat = 0 := by
      simp [isJump] at noJump
      omega
    rw [mem_cons, mem_singleton]
    omega
  | _ => exact mem_singleton.mpr rfl

theorem scanned_lt (scan : Scanned f i) : i < f.length := by
  cases scan with
  | start pos => exact pos
  | next _ falls => exact accepted.next_of_falls falls
  | jump _ jumps _ => exact (accepted.jumpsTo_lt jumps).2

theorem edge_of_succs (fnd : f[i]? = some insn)
    (notLong : longLoad insn = false) (nxt : j ∈ succs i insn) :
    JumpsTo f i j ∨ FallsFrom f i ∧ j = i + 1 ∧ isJmp insn = false := by
  have edge := accepted.dataFlow.edge i insn fnd j nxt
  cases jumps : isJmp insn with
  | true =>
    obtain ⟨isTarget, _⟩ := mem_jumpTargets_of_succs nxt jumps
      (lt_trans edge.2 accepted.short)
    exact .inl ⟨insn, fnd, jumps, isTarget⟩
  | false =>
    obtain ⟨rfl, noRet⟩ := succs_eq_next nxt jumps
    refine .inr ⟨⟨insn, fnd, ?_⟩, rfl, rfl⟩
    rw [stops, notLong, jumps, beq_eq_false_iff_ne.mpr noRet]
    rfl

theorem pass1At_some (dat : Nat → InsnData) {cnt : Nat}
    (lt : cnt ≤ f.length) : ∃ st, pass1At bc f dat cnt = some st := by
  induction cnt with
  | zero => exact ⟨_, rfl⟩
  | succ i ih =>
    obtain ⟨st, prev⟩ := ih (le_of_lt lt)
    have fnd : f[i]? = some f[i] := getElem?_eq_getElem lt
    have offsets : isJmp f[i] = true → ¬ (f.length - (i + 1) ≤ (jumpOffsets f[i]).1 ∨
        f.length - (i + 1) ≤ (jumpOffsets f[i]).2) := by
      intro jumps
      obtain ⟨op, dec⟩ := accepted.decode fnd
      have edge := accepted.dataFlow.edge i _ fnd
      rw [isJmp_of_decode dec] at jumps
      unfold succs at edge
      rw [dec] at edge
      cases op with
      | ja =>
        have last := (edge _ (mem_singleton.mpr rfl)).2
        rw [jumpOffsets_ja dec]
        omega
      | jmp test src =>
        have onTrue := (edge _ mem_cons_self).2
        have onFalse := (edge _ (mem_cons_of_mem _ (mem_singleton.mpr rfl))).2
        rw [jumpOffsets_jmp dec]
        omega
      | _ => cases jumps
    rw [pass1At, prev, fnd]
    change ∃ s', pass1Insn _ _ _ _ _ = some s'
    unfold pass1Insn pass1Reached
    by_cases unreachable : ((st.dat i).bjumps.isEmpty && st.unreachable) = true
    · rw [if_pos unreachable]
      exact ⟨_, rfl⟩
    rw [if_neg unreachable]
    by_cases jumps : isJmp f[i] = true
    · rw [if_pos jumps, if_neg (offsets jumps)]
      exact ⟨_, rfl⟩
    · rw [if_neg jumps]
      exact ⟨_, rfl⟩

end

end Accepted

theorem accepted_of_validate (accepted : bpfValidateExt bc f = true)
    (decodes : ∀ insn ∈ f, ∃ op, decode insn.code = some op) : Nonempty (Accepted bc f) := by
  obtain ⟨flow⟩ := bpfValidateExt_dataFlow accepted
  have short := (bpfValidateExt_shape accepted).2.1
  rw [bpfMaxinsns] at short
  exact ⟨⟨flow, decodes, by omega⟩⟩

end Program

/-! ### The second pass -/

section Pass2

variable {World : Type u} {bc : Option (BpfCtx World)} {f : List BpfInsn} {insn : BpfInsn}
  {dat : Nat → InsnData} {abc_length i j l : Nat} {jumps : List Nat}

/-- Data that a pass behind the first one may rely on. -/
structure Linked (f : List BpfInsn) (dat : Nat → InsnData) : Prop where
  jumps : ∀ l j, l ∈ (dat j).bjumps ↔ l < f.length ∧ Scanned f l ∧ JumpsTo f l j
  reached : ∀ l < f.length, (dat l).unreachable = false ↔ Scanned f l

theorem cutJumps_bjumps : (cutJumps abc_length jumps dat j).bjumps = (dat j).bjumps := by
  induction jumps generalizing dat with
  | nil => rfl
  | cons jmp tl ih =>
    rw [cutJumps]
    grind [update]

theorem cutJumps_unreachable :
    (cutJumps abc_length jumps dat j).unreachable = (dat j).unreachable := by
  induction jumps generalizing dat with
  | nil => rfl
  | cons jmp tl ih =>
    rw [cutJumps]
    grind [update]

theorem cutJumps_rdata : (cutJumps abc_length jumps dat j).rdata = (dat j).rdata := by
  induction jumps generalizing dat with
  | nil => rfl
  | cons jmp tl ih =>
    rw [cutJumps]
    grind [update]

theorem cutJumps_length :
    (cutJumps abc_length jumps dat l).jdata.abc_length ≤ (dat l).jdata.abc_length ∧
      (l ∈ jumps → (cutJumps abc_length jumps dat l).jdata.abc_length ≤ abc_length) := by
  induction jumps generalizing dat with
  | nil => exact ⟨le_refl _, nofun⟩
  | cons jmp tl ih =>
    rw [cutJumps]
    generalize next' : (if abc_length < (dat jmp).jdata.abc_length then _ else dat) = next
    obtain ⟨cut, cutRest⟩ := @ih next
    have fst : (next l).jdata.abc_length ≤ (dat l).jdata.abc_length ∧
        (l = jmp → (next l).jdata.abc_length ≤ abc_length) := by
      rw [← next']
      grind [update]
    refine ⟨le_trans cut fst.1, fun isMem => ?_⟩
    cases mem_cons.mp isMem with
    | inl same => exact le_trans cut (fst.2 same)
    | inr late => exact cutRest late

/-- The second pass at an opcode of the interpreter. -/
def Op.abcLength (extwords : Nat) (k : UInt32) (jump abc_length : Nat) : Op → Nat
  | .retK => if k = 0 then maxAbcLength else 0
  | .retA | .cop | .copx => 0
  | .st | .stx => if extwords ≠ 0 then 0 else abc_length
  | .ja | .jmp _ _ => jump
  | .ldAbs size | .ldInd size =>
    if abc_length < k.toNat + size.width then k.toNat + size.width else abc_length
  | .ldxMsh => if abc_length < k.toNat + 1 then k.toNat + 1 else abc_length
  | _ => abc_length

theorem pass2Length_of_decode {op : Op} {jdata : JumpData}
    (dec : decode insn.code = some op) :
    pass2Length bc insn jdata abc_length =
      op.abcLength (extwords bc) insn.k jdata.abc_length abc_length := by
  have code := code_of_decode dec
  have isLoad := readPktInsn_of_decode dec
  unfold pass2Length
  rw [isLoad]
  change (if bpfClass insn.code = bpfRet then _ else if bpfClass insn.code = bpfMisc then _ else
    if bpfClass insn.code = bpfSt ∨ bpfClass insn.code = bpfStx then
      if extwords bc ≠ 0 then 0 else abc_length else _) = _
  rw [← code]
  cases op with
  | ldAbs size | ldInd size =>
    cases size <;> simp +decide only [abcLength, packetSize, Option.map, ↓reduceIte]
  | jmp op src => cases op <;> cases src <;> simp +decide only [abcLength, ↓reduceIte]
  | alu op src =>
    cases op <;> cases src <;>
      simp +decide only [abcLength, packetSize, Option.map, ↓reduceIte]
  | _ =>
    simp +decide only [abcLength, packetSize, Option.map, Size.width, ↓reduceIte, true_and,
      false_and]

theorem length_le_abcLength {op : Op} {extwords jump : Nat} {size : Size} {k : UInt32}
    (isLoad : op.packetSize = some size) :
    k.toNat + size.width ≤ op.abcLength extwords k jump abc_length ∧
      abc_length ≤ op.abcLength extwords k jump abc_length ∧
      (op.abcLength extwords k jump abc_length = k.toNat + size.width ∨
        op.abcLength extwords k jump abc_length = abc_length) := by
  cases op with
  | ldAbs size' | ldInd size' =>
    cases isLoad
    simp only [abcLength]
    split <;> omega
  | ldxMsh =>
    cases isLoad
    simp only [abcLength, Size.width]
    split <;> omega
  | _ => cases isLoad

/-- A family of properties of an instruction and a length that the pass computes with. -/
structure Transfers (bc : Option (BpfCtx World)) (f : List BpfInsn) (good : Nat → Nat → Prop) :
    Prop where
  mono : ∀ i shorter longer, good i longer → shorter ≤ longer → good i shorter
  transfer : ∀ i insn jdata abc_length, f[i]? = some insn →
    (FallsFrom f i → good (i + 1) abc_length) →
    (∀ j, JumpsTo f i j → good j jdata.abc_length) → good i (pass2Length bc insn jdata abc_length)

/-- What the pass holds after its iterations for the last `count` instructions. -/
structure Pass2Inv (f : List BpfInsn) (good : Nat → Nat → Prop) (count : Nat) (st : Pass2) :
    Prop where
  linked : Linked f st.dat
  carried : Scanned f (f.length - count) → good (f.length - count) st.abc_length
  jumped : ∀ l j, Scanned f l → JumpsTo f l j → f.length - count ≤ j →
    good j (st.dat l).jdata.abc_length
  loads : ∀ (i : Nat) insn length, f.length - count ≤ i → Scanned f i → f[i]? = some insn →
    readPktInsn insn = some length →
    length ≤ (st.dat i).rdata.abc_length ∧ good i (st.dat i).rdata.abc_length

variable {good : Nat → Nat → Prop} {cnt : Nat} {st : Pass2}

/-- One more instruction, from what holds at its successors. -/
theorem Pass2Inv.step (accepted : Accepted bc f) (transfers : Transfers bc f good)
    (inv : Pass2Inv f good cnt st) (lt : cnt < f.length)
    (fnd : f[f.length - (cnt + 1)]? = some insn) :
    Pass2Inv f good (cnt + 1) (pass2Insn bc (f.length - (cnt + 1)) insn st) := by
  obtain ⟨i, isHere, next'⟩ : ∃ i, f.length - (cnt + 1) = i ∧ f.length - cnt = i + 1 :=
    ⟨_, rfl, by omega⟩
  obtain ⟨link, carried, jumped, loads⟩ := inv
  rw [next'] at carried jumped loads
  rw [isHere] at fnd ⊢
  have got := link.reached i (by omega)
  unfold pass2Insn
  by_cases unreachable : (st.dat i).unreachable = true
  · rw [if_pos unreachable]
    have notScanned : ¬ Scanned f i := fun scan => by
      rw [got.mpr scan] at unreachable
      cases unreachable
    refine ⟨link, ?_, ?_, ?_⟩
    · rw [isHere]
      exact fun scan => absurd scan notScanned
    · intro l j scan jumps ahead
      have oth : j ≠ i := fun same =>
        notScanned (same ▸ .jump scan jumps (accepted.jumpsTo_lt jumps).1)
      exact jumped l j scan jumps (by omega)
    · intro m oth length ahead scan
      have later : m ≠ i := fun same => notScanned (same ▸ scan)
      exact loads m oth length (by omega) scan
  rw [if_neg unreachable]
  have scan : Scanned f i := got.mp (Bool.eq_false_of_not_eq_true unreachable)
  have goodHere : good i (pass2Length bc insn (st.dat i).jdata st.abc_length) :=
    transfers.transfer i insn _ _ fnd (fun falls => carried (.next scan falls)) fun j jumps =>
      jumped i j scan jumps (accepted.jumpsTo_lt jumps).1
  dsimp only
  generalize len : pass2Length bc insn (st.dat i).jdata st.abc_length = abc_length at goodHere
  generalize isDat : (if (readPktInsn insn).isSome = true then _ else st.dat) = dat
  have bjumps : ∀ j, (dat j).bjumps = (st.dat j).bjumps := by
    rw [← isDat]
    grind [update]
  have sameReach : ∀ j, (dat j).unreachable = (st.dat j).unreachable := by
    rw [← isDat]
    grind [update]
  have sameJdata : ∀ j, (dat j).jdata = (st.dat j).jdata := by
    rw [← isDat]
    grind [update]
  have sameRdata : ∀ j, j ≠ i → (dat j).rdata = (st.dat j).rdata := by
    rw [← isDat]
    grind [update]
  refine ⟨⟨?_, ?_⟩, ?_, ?_, ?_⟩
  · intro l j
    rw [cutJumps_bjumps, bjumps]
    exact link.jumps l j
  · intro l below
    rw [cutJumps_unreachable, sameReach]
    exact link.reached l below
  · rw [isHere]
    exact fun _ => goodHere
  · intro l j hscn jumps ahead
    obtain ⟨cut, cutHere⟩ := @cutJumps_length dat abc_length l (dat i).bjumps
    by_cases same : j = i
    · subst same
      have isMem : l ∈ (dat j).bjumps := by
        rw [bjumps]
        exact (link.jumps l j).mpr ⟨accepted.scanned_lt hscn, hscn, jumps⟩
      exact transfers.mono _ _ _ goodHere (cutHere isMem)
    · refine transfers.mono _ _ _ (jumped l j hscn jumps (by omega)) ?_
      rw [← sameJdata]
      exact cut
  · intro m oth length ahead hscn hit' isLoad
    rw [cutJumps_rdata]
    by_cases same : m = i
    · subst same
      obtain rfl := Option.some.inj (fnd.symm.trans hit')
      have kept : (dat m).rdata.abc_length = abc_length := by
        rw [← isDat, isLoad, if_pos Option.isSome_some, update_self]
      rw [kept]
      refine ⟨?_, goodHere⟩
      obtain ⟨op, dec⟩ := accepted.decode fnd
      rw [readPktInsn_of_decode dec] at isLoad
      obtain ⟨size, hsz, rfl⟩ := Option.map_eq_some_iff.mp isLoad
      rw [← len, pass2Length_of_decode dec]
      exact (length_le_abcLength hsz).1
    · rw [sameRdata m same]
      exact loads m oth length (by omega) hscn hit' isLoad

theorem pass2At_inv (accepted : Accepted bc f) (transfers : Transfers bc f good)
    (link : Linked f dat) (lt : cnt ≤ f.length) :
    Pass2Inv f good cnt (pass2At bc f dat cnt) := by
  induction cnt with
  | zero =>
    refine ⟨link, ?_, ?_, ?_⟩
    · intro scan
      exact absurd (accepted.scanned_lt scan) (lt_irrefl _)
    · intro l j _ jumps far
      have inReach := (accepted.jumpsTo_lt jumps).2
      omega
    · intro i insn len far scan
      have inReach := accepted.scanned_lt scan
      omega
  | succ cnt ih =>
    have fnd : f[f.length - (cnt + 1)]? = some f[f.length - (cnt + 1)] :=
      getElem?_eq_getElem (by omega)
    simp only [pass2At, fnd]
    exact (ih (le_of_lt lt)).step accepted transfers lt fnd

end Pass2

/-! ### The third pass -/

section Pass3

variable {World : Type u} {bc : Option (BpfCtx World)} {f : List BpfInsn} {insn : BpfInsn}
  {dat : Nat → InsnData} {checked_length i j l m : Nat} {jumps : List Nat}

theorem cutChecked_le : cutChecked dat jumps checked_length ≤ checked_length ∧
    (l ∈ jumps → cutChecked dat jumps checked_length ≤ (dat l).jdata.checked_length) := by
  induction jumps generalizing checked_length with
  | nil => exact ⟨le_refl _, nofun⟩
  | cons jmp tl ih =>
    rw [cutChecked]
    generalize next' : (if (dat jmp).jdata.checked_length < checked_length then _ else _) = next
    obtain ⟨cut, cutRest⟩ := @ih next
    have fst : next ≤ checked_length ∧ next ≤ (dat jmp).jdata.checked_length := by
      rw [← next']
      split <;> omega
    refine ⟨le_trans cut fst.1, fun isMem => ?_⟩
    cases mem_cons.mp isMem with
    | inl same => exact le_trans cut (same ▸ fst.2)
    | inr late => exact cutRest late

/-- The length that the pass takes as checked before an instruction. -/
def checkedBefore (f : List BpfInsn) (dat : Nat → InsnData) (i : Nat) : Nat :=
  let st := pass3At f dat i
  cutChecked st.dat (st.dat i).bjumps st.checked_length

/-- The length that is checked behind an instruction. -/
def checkedAfter (f : List BpfInsn) (dat : Nat → InsnData) (i : Nat) (insn : BpfInsn) : Nat :=
  if (readPktInsn insn).isSome ∧ checkedBefore f dat i < (dat i).rdata.abc_length then
    (dat i).rdata.abc_length
  else checkedBefore f dat i

theorem pass3Insn_frame (i : Nat) (insn : BpfInsn) (st : Pass3) :
    ((pass3Insn i insn st).dat j).bjumps = (st.dat j).bjumps ∧
      ((pass3Insn i insn st).dat j).unreachable = (st.dat j).unreachable ∧
      ((pass3Insn i insn st).dat j).rdata.abc_length = (st.dat j).rdata.abc_length ∧
      (j ≠ i → (pass3Insn i insn st).dat j = st.dat j) := by
  unfold pass3Insn
  dsimp only
  split
  · exact ⟨rfl, rfl, rfl, fun _ => rfl⟩
  split
  · grind [update]
  · split
    · split
      · grind [update]
      · grind [update]
    · exact ⟨rfl, rfl, rfl, fun _ => rfl⟩

theorem pass3At_frame (f : List BpfInsn) (dat : Nat → InsnData) (i j : Nat) :
    ((pass3At f dat i).dat j).bjumps = (dat j).bjumps ∧
      ((pass3At f dat i).dat j).unreachable = (dat j).unreachable ∧
      ((pass3At f dat i).dat j).rdata.abc_length = (dat j).rdata.abc_length := by
  induction i with
  | zero => exact ⟨rfl, rfl, rfl⟩
  | succ i ih =>
    rw [pass3At]
    cases found : f[i]? with
    | none => exact ih
    | some insn =>
      obtain ⟨sameJumps, sameReach, eqLen, _⟩ :=
        pass3Insn_frame (j := j) i insn (pass3At f dat i)
      exact ⟨sameJumps.trans ih.1, sameReach.trans ih.2.1, eqLen.trans ih.2.2⟩

theorem pass3At_final (f : List BpfInsn) (dat : Nat → InsnData) {i m : Nat} (later : i < m) :
    (pass3At f dat m).dat i = (pass3At f dat (i + 1)).dat i := by
  induction m, later using Nat.le_induction with
  | base => rfl
  | succ m later ih =>
    rw [← ih, pass3At]
    cases found : f[m]? with
    | none => rfl
    | some insn =>
      exact (pass3Insn_frame (j := i) m insn (pass3At f dat m)).2.2.2 (ne_of_lt later)

theorem update_checkedLength (i : Nat) (data : InsnData) :
    (update dat i data i).jdata.checked_length = data.jdata.checked_length := by
  rw [update_self]

theorem update_checkLength (i : Nat) (data : InsnData) :
    (update dat i data i).rdata.check_length = data.rdata.check_length := by
  rw [update_self]

/-- What the third pass leaves at a reachable instruction. -/
theorem pass3At_scanned (link : Linked f dat) (scan : Scanned f i)
    (fnd : f[i]? = some insn) :
    (pass3At f dat (i + 1)).checked_length = checkedAfter f dat i insn ∧ (isJmp insn = true →
        ((pass3At f dat (i + 1)).dat i).jdata.checked_length = checkedBefore f dat i) ∧
      ((readPktInsn insn).isSome → ((pass3At f dat (i + 1)).dat i).rdata.check_length =
        if checkedBefore f dat i < (dat i).rdata.abc_length then (dat i).rdata.abc_length else 0) := by
  have below : i < f.length := (List.getElem?_eq_some_iff.mp fnd).1
  obtain ⟨_, sameReach, eqLen⟩ := pass3At_frame f dat i i
  have got : ((pass3At f dat i).dat i).unreachable = false := by
    rw [sameReach]
    exact (link.reached i below).mpr scan
  have noLoad : isJmp insn = true → (readPktInsn insn).isSome = false := by
    intro jumps
    unfold readPktInsn
    rw [beq_iff_eq.mp jumps]
    rfl
  have prev : cutChecked (pass3At f dat i).dat ((pass3At f dat i).dat i).bjumps
      (pass3At f dat i).checked_length = checkedBefore f dat i := rfl
  simp only [pass3At, fnd]
  unfold pass3Insn checkedAfter
  rw [got, if_neg Bool.false_ne_true]
  dsimp only
  rw [prev, eqLen]
  by_cases jumps : bpfClass insn.code = bpfJmp
  · have isJump : isJmp insn = true := beq_iff_eq.mpr jumps
    rw [if_pos jumps, noLoad isJump]
    exact ⟨rfl, fun _ => update_checkedLength i _, nofun⟩
  have noJump : isJmp insn ≠ true := fun isJump => jumps (beq_iff_eq.mp isJump)
  rw [if_neg jumps]
  by_cases isLoad : (readPktInsn insn).isSome = true
  · by_cases less : checkedBefore f dat i < (dat i).rdata.abc_length
    · rw [if_pos isLoad, if_pos less, if_pos ⟨isLoad, less⟩, if_pos less]
      exact ⟨rfl, fun isJump => absurd isJump noJump, fun _ =>
        update_checkLength i _⟩
    · rw [if_pos isLoad, if_neg less, if_neg fun both => less both.2, if_neg less]
      exact ⟨rfl, fun isJump => absurd isJump noJump, fun _ =>
        update_checkLength i _⟩
  · rw [if_neg isLoad, if_neg fun both => isLoad both.1]
    exact ⟨rfl, fun isJump => absurd isJump noJump, fun load => absurd load isLoad⟩

theorem checkedBefore_succ (link : Linked f dat) (scan : Scanned f i)
    (fnd : f[i]? = some insn) : checkedBefore f dat (i + 1) ≤ checkedAfter f dat i insn := by
  rw [← (pass3At_scanned link scan fnd).1]
  exact (@cutChecked_le _ _ 0 _).1

theorem checkedBefore_jump (accepted : Accepted bc f) (link : Linked f dat)
    (scan : Scanned f i) (jumps : JumpsTo f i j) :
    checkedBefore f dat j ≤ checkedBefore f dat i := by
  obtain ⟨ahead, _⟩ := accepted.jumpsTo_lt jumps
  have isMem : i ∈ ((pass3At f dat j).dat j).bjumps := by
    rw [(pass3At_frame f dat j j).1]
    exact (link.jumps i j).mpr ⟨accepted.scanned_lt scan, scan, jumps⟩
  obtain ⟨insn, fnd, isJump, _⟩ := jumps
  rw [← (pass3At_scanned link scan fnd).2.1 isJump, ← pass3At_final f dat ahead]
  exact (@cutChecked_le _ _ i _).2 isMem

end Pass3

/-! ### What a failed check means -/

section Meaning

variable {World : Type u} {target : Target} {bc : Option (BpfCtx World)} {f : List BpfInsn}
  {p : Nat → UInt8} {insn : BpfInsn} {op : Op} {buflen i : Nat}

/-- A packet too short for `length` makes the interpreter return 0 from instruction `i`, and nobody
sees the run. -/
def ReturnsZero (target : Target) (bc : Option (BpfCtx World)) (f : List BpfInsn) (p : Nat → UInt8)
    (buflen i length : Nat) : Prop :=
  CheckFails buflen length → ∀ (s : FilterState World) (log : List (Event World)), s.pc = i →
    s.args.buflen = buflen →
      ∃ args, plainRun target bc f p (f.length - i) ⟨s, log⟩ = some (.ret 0 args s.world, log)

theorem ChecksExact.bounded (exact : ChecksExact f buflen) (fnd : f[i]? = some insn)
    (dec : decode insn.code = some op) : buflen ≤ uint32Max ∨
      (∀ size, op.packetSize = some size → insn.k.toNat + size.width ≤ uint32Max) ∧
        ∀ size, op ≠ .ldInd size := by
  refine exact.imp_right fun each => ?_
  obtain ⟨notLong, noInd⟩ := each insn (mem_of_getElem? fnd)
  refine ⟨fun size hsz => ?_, fun size same => noInd size (same ▸ dec)⟩
  unfold longLoad at notLong
  rw [readPktInsn_of_decode dec, hsz] at notLong
  exact not_lt.mp (of_decide_eq_false notLong)

theorem longLoad_eq_false (dec : decode insn.code = some op)
    (inReach : ∀ size, op.packetSize = some size → insn.k.toNat + size.width ≤ uint32Max) :
    longLoad insn = false := by
  unfold longLoad
  rw [readPktInsn_of_decode dec]
  cases isSize : op.packetSize with
  | none => rfl
  | some size => exact decide_eq_false (not_lt.mpr (inReach size isSize))

theorem not_checkFails_zero : ¬ CheckFails buflen 0 := by
  unfold CheckFails
  omega

/-- Behind a quiet instruction whose own check holds, the length comes from what follows. -/
theorem Op.abcLength_quiet {extwords jump abc_length : Nat} {k : UInt32}
    (quiet : op.quiet extwords = true)
    (fails : CheckFails buflen (op.abcLength extwords k jump abc_length))
    (own : ∀ size, op.packetSize = some size → ¬ CheckFails buflen (k.toNat + size.width)) :
    CheckFails buflen (if op.isJump then jump else abc_length) := by
  cases isSize : op.packetSize with
  | some size =>
    have noJump : op.isJump = false := by
      cases op with
      | ja | jmp _ _ => cases isSize
      | _ => rfl
    rw [noJump]
    obtain ⟨_, _, same⟩ := @length_le_abcLength abc_length op extwords jump size k isSize
    cases same with
    | inl same => exact absurd (same ▸ fails) (own size isSize)
    | inr same => exact same ▸ fails
  | none =>
    cases op with
    | retK | retA | cop | copx => cases quiet
    | st | stx =>
      have zero : extwords = 0 := beq_iff_eq.mp quiet
      rwa [abcLength, if_neg (not_not.mpr zero)] at fails
    | ldAbs _ | ldInd _ | ldxMsh => cases isSize
    | _ => exact fails

/-- A packet too short for the check returns zero on every way. -/
theorem returnsZero_transfers (accepted : Accepted bc f) (pos : 0 < buflen)
    (exact : ChecksExact f buflen) : Transfers bc f (ReturnsZero target bc f p buflen) where
  mono := fun _ _ _ holds below fails => holds (fails.mono below)
  transfer := by
    intro i insn jdata abc_length fnd goodNext goodJumps fails s log atPc len
    obtain ⟨op, dec⟩ := accepted.decode fnd
    rw [pass2Length_of_decode dec] at fails
    have below : i < f.length := (List.getElem?_eq_some_iff.mp fnd).1
    have foundHere : f[s.pc]? = some insn := by rw [atPc, fnd]
    obtain ⟨tl, suff⟩ : ∃ tl, f.length - i = tl + 1 := ⟨f.length - i - 1, by omega⟩
    have ret : filterStep target bc f p s = s.ret 0 →
        ∃ args, plainRun target bc f p (f.length - i) ⟨s, log⟩ =
          some (.ret 0 args s.world, log) := by
      intro stop
      rw [suff]
      exact ⟨s.args, run_done (loggedStep_done stop log)⟩
    by_cases quiet : op.quiet (extwords bc) = true
    · have bnd := exact.bounded fnd dec
      by_cases own : ∃ size, op.packetSize = some size ∧
          CheckFails buflen (insn.k.toNat + size.width)
      · obtain ⟨size, hsz, fails⟩ := own
        apply ret
        rw [filterStep_of_decode foundHere dec]
        refine execOp_checkFails hsz (by omega) (len ▸ fails) ?_
        rw [len]
        exact bnd.imp_right fun both => ⟨both.1 size hsz, both.2⟩
      have holds : ∀ size, op.packetSize = some size →
          ¬ CheckFails buflen (insn.k.toNat + size.width) :=
        fun size hsz fails => own ⟨size, hsz, fails⟩
      have notLong := longLoad_eq_false dec fun size hsz =>
        not_lt.mp (not_or.mp (holds size hsz)).1
      have tail := abcLength_quiet quiet fails holds
      cases filterStep_quiet accepted.dataFlow foundHere dec quiet with
      | inl stop => exact ret stop
      | inr moves =>
        obtain ⟨s', moved, nxt, eqLen, sameWorld, unseen⟩ := moves
        rw [atPc] at nxt
        have ahead := (accepted.dataFlow.edge i insn fnd _ nxt).1
        have more : ∃ args, plainRun target bc f p (f.length - s'.pc) ⟨s', log⟩ =
            some (.ret 0 args s'.world, log) := by
          cases accepted.edge_of_succs fnd notLong nxt with
          | inl jumps =>
            obtain ⟨_, hit', isJump, _⟩ := id jumps
            obtain rfl := Option.some.inj (fnd.symm.trans hit')
            rw [isJmp_of_decode dec] at isJump
            rw [isJump] at tail
            exact goodJumps _ jumps tail s' log rfl (eqLen.trans len)
          | inr falls =>
            obtain ⟨falls, next', noJump⟩ := falls
            rw [isJmp_of_decode dec] at noJump
            rw [noJump] at tail
            rw [next']
            exact goodNext falls tail s' log next' (eqLen.trans len)
        obtain ⟨args, fin⟩ := more
        refine ⟨args, ?_⟩
        rw [suff, plainRun, run_next (loggedStep_next moved log), unseen, append_nil,
          ← sameWorld]
        exact run_mono fin (by omega)
    · -- Only `return 0` has a length here that a check can fail.
      cases op with
      | retK =>
        apply ret
        rw [filterStep_of_decode foundHere dec]
        by_cases zero : insn.k = 0
        · rw [execOp, zero]
        · rw [abcLength, if_neg zero] at fails
          exact absurd fails not_checkFails_zero
      | retA | cop | copx => exact absurd fails not_checkFails_zero
      | st | stx =>
        have external : extwords bc ≠ 0 := fun zero => quiet (beq_iff_eq.mpr zero)
        rw [abcLength, if_pos external] at fails
        exact absurd fails not_checkFails_zero
      | _ => exact absurd rfl quiet

/-! ### The two runs -/

variable {dat : Nat → InsnData} {s : FilterState World}

/-- The checks at an instruction: they fail and the interpreter returns 0 from there, or the step is
the interpreter's and what is checked behind it holds. -/
theorem checkedStep_cases (accepted : Accepted bc f) (exact : ChecksExact f s.args.buflen)
    (pos : 0 < s.args.buflen) (link : Linked f dat)
    (good : ∀ len, readPktInsn insn = some len → len ≤ (dat s.pc).rdata.abc_length ∧
      ReturnsZero target bc f p s.args.buflen s.pc (dat s.pc).rdata.abc_length)
    (scan : Scanned f s.pc) (fnd : f[s.pc]? = some insn)
    (holds : ¬ CheckFails s.args.buflen (checkedBefore f dat s.pc)) :
    checkedStep target bc f p (pass3At f dat f.length).dat s.args.buflen s = s.ret 0 ∧
      (∀ log, ∃ args, plainRun target bc f p (f.length - s.pc) ⟨s, log⟩ =
        some (.ret 0 args s.world, log)) ∨
    checkedStep target bc f p (pass3At f dat f.length).dat s.args.buflen s =
        filterStep target bc f p s ∧
      longLoad insn = false ∧ ¬ CheckFails s.args.buflen (checkedAfter f dat s.pc insn) := by
  obtain ⟨op, dec⟩ := accepted.decode fnd
  have isStep : checkedStep target bc f p (pass3At f dat f.length).dat s.args.buflen s =
      checkedOp target bc p s.args.buflen ((pass3At f dat f.length).dat s.pc).rdata s insn op := by
    simp only [checkedStep, fnd, dec]
  rw [isStep, filterStep_of_decode fnd dec]
  have hread := readPktInsn_of_decode dec
  cases isSize : op.packetSize with
  | none =>
    rw [isSize] at hread
    have noLoad : (readPktInsn insn).isSome = false := by
      rw [hread]
      rfl
    right
    refine ⟨?_, longLoad_eq_false dec (by rw [isSize]; exact nofun), ?_⟩
    · rw [checkedOp, noLoad, if_neg Bool.false_ne_true]
    · rwa [checkedAfter, noLoad, if_neg (by simp)]
  | some size =>
    rw [isSize] at hread
    have isLoad : (readPktInsn insn).isSome = true := by
      rw [hread]
      rfl
    obtain ⟨covers, ret⟩ := good _ hread
    have isCheck : ((pass3At f dat f.length).dat s.pc).rdata.check_length =
        if checkedBefore f dat s.pc < (dat s.pc).rdata.abc_length then
          (dat s.pc).rdata.abc_length else 0 := by
      rw [pass3At_final f dat (accepted.scanned_lt scan)]
      exact (pass3At_scanned link scan fnd).2.2 isLoad
    have aft : checkedAfter f dat s.pc insn =
        if checkedBefore f dat s.pc < (dat s.pc).rdata.abc_length then
          (dat s.pc).rdata.abc_length else checkedBefore f dat s.pc := by
      simp only [checkedAfter, isLoad, true_and]
    -- Where no check fails, the load is in the packet.
    have pss : ¬ CheckFails s.args.buflen (dat s.pc).rdata.abc_length →
        emitLoad target bc p s.args.buflen s insn op = execOp target bc p s insn op ∧
          longLoad insn = false := by
      intro past
      have fits : ¬ CheckFails s.args.buflen (insn.k.toNat + size.width) :=
        fun fails => past (fails.mono covers)
      refine ⟨emitLoad_eq isSize (ne_of_gt pos) fits
        ((exact.bounded fnd dec).imp_right And.right), longLoad_eq_false dec ?_⟩
      intro oth same
      obtain rfl := Option.some.inj (isSize.symm.trans same)
      exact not_lt.mp (not_or.mp fits).1
    rw [checkedOp, if_pos isLoad, isCheck, aft]
    by_cases less : checkedBefore f dat s.pc < (dat s.pc).rdata.abc_length
    · rw [if_pos less, if_pos less]
      by_cases fails : CheckFails s.args.buflen (dat s.pc).rdata.abc_length
      · left
        refine ⟨?_, fun log => ret fails s log rfl rfl⟩
        cases fails with
        | inl long => rw [if_pos long]
        | inr short =>
          by_cases long : uint32Max < (dat s.pc).rdata.abc_length
          · rw [if_pos long]
          · rw [if_neg long, if_pos ⟨Nat.zero_lt_of_lt less, short⟩]
      · right
        obtain ⟨inReach, cov⟩ := not_or.mp fails
        rw [if_neg inReach, if_neg fun both => cov both.2]
        exact ⟨(pss fails).1, (pss fails).2, fails⟩
    · rw [if_neg less, if_neg less]
      right
      have past : ¬ CheckFails s.args.buflen (dat s.pc).rdata.abc_length :=
        fun fails => holds (fails.mono (not_lt.mp less))
      exact ⟨(pss past).1, (pss past).2, holds⟩

/-- From every instruction that the pass scans, both runs return the same and show the same. -/
theorem checkedRun_eq (accepted : Accepted bc f) (keeps : CopsKeepBuflen bc)
    (exact : ChecksExact f buflen) (pos : 0 < buflen) (link : Linked f dat)
    (good : ∀ (i : Nat) insn len, Scanned f i → f[i]? = some insn →
      readPktInsn insn = some len → len ≤ (dat i).rdata.abc_length ∧
        ReturnsZero target bc f p buflen i (dat i).rdata.abc_length)
    (log : List (Event World)) {fuel : Nat} (suff : f.length - s.pc ≤ fuel)
    (scan : Scanned f s.pc) (len : s.args.buflen = buflen)
    (holds : ¬ CheckFails buflen (checkedBefore f dat s.pc)) :
    ∃ v plainArgs checkedArgs w shown,
      plainRun target bc f p fuel ⟨s, log⟩ = some (.ret v plainArgs w, shown) ∧
        checkedRun target bc f p (pass3At f dat f.length).dat buflen fuel ⟨s, log⟩ =
          some (.ret v checkedArgs w, shown) := by
  induction fuel generalizing s log with
  | zero =>
    have rng := accepted.scanned_lt scan
    omega
  | succ fuel ih =>
    have rng := accepted.scanned_lt scan
    have fnd : f[s.pc]? = some f[s.pc] := getElem?_eq_getElem rng
    subst len
    cases checkedStep_cases accepted exact pos link
        (fun len isLoad => good _ _ len scan fnd isLoad) scan fnd holds with
    | inl stops =>
      obtain ⟨stop, returns⟩ := stops
      obtain ⟨args, fin⟩ := returns log
      exact ⟨0, args, s.args, s.world, log, run_mono fin suff,
        run_done (loggedStep_done stop log)⟩
    | inr goes =>
      obtain ⟨same, notLong, tail⟩ := goes
      cases taken : filterStep target bc f p s with
      | done out =>
        have noFault : filterStep target bc f p s ≠ .done .fault :=
          filterStep_ne_fault accepted.dataFlow rng
        cases out with
        | fault => exact absurd taken noFault
        | ret v args w =>
          exact ⟨v, args, args, w, log, run_done (loggedStep_done taken log),
            run_done (loggedStep_done (same.trans taken) log)⟩
      | next s' =>
        obtain ⟨insn, hit', nxt⟩ := filterStep_next taken
        obtain rfl := Option.some.inj (fnd.symm.trans hit')
        obtain ⟨op, dec⟩ := accepted.decode fnd
        have ahead := (accepted.dataFlow.edge _ _ fnd _ nxt).1
        have eqLen := filterStep_buflen keeps fnd dec taken
        have edge := accepted.edge_of_succs fnd notLong nxt
        have scannedNext : Scanned f s'.pc := by
          cases edge with
          | inl jumps => exact .jump scan jumps ahead
          | inr falls => exact falls.2.1 ▸ .next scan falls.1
        have holdsNext : ¬ CheckFails s.args.buflen (checkedBefore f dat s'.pc) := by
          cases edge with
          | inl jumps =>
            exact fun fails =>
              holds (fails.mono (checkedBefore_jump accepted link scan jumps))
          | inr falls =>
            rw [falls.2.1]
            exact fun fails =>
              tail (fails.mono (checkedBefore_succ link scan fnd))
        obtain ⟨v, plainArgs, checkedArgs, w, shown, plain, chk⟩ :=
          @ih s' (log ++ events bc f s) (by omega) scannedNext eqLen holdsNext
        exact ⟨v, plainArgs, checkedArgs, w, shown,
          (run_next (loggedStep_next taken log)).trans plain,
          (run_next (loggedStep_next (same.trans taken) log)).trans chk⟩

/-- The checks that `optimize` computes are the interpreter's: on every packet below 4 GiB, and on
every packet when no load may reach beyond, the generated code reads inside the packet, returns what
`bpf_filter_ext` returns and makes the same calls and stores. -/
theorem optimize_checks (target : Target) (bc : Option (BpfCtx World)) (f : List BpfInsn)
    (accepted : bpfValidateExt bc f = true)
    (decodes : ∀ insn ∈ f, ∃ op, Op.decode insn.code = some op) (keeps : CopsKeepBuflen bc)
    (args : BpfArgs) (world : World) (positive : 0 < args.buflen)
    (exact : ChecksExact f args.buflen) (old : Nat → InsnData) :
    ∃ dat, optimize bc f old = some dat ∧ ∃ value plainArgs checkedArgs world' shown,
      bpfFilterExt target bc (some f) args world f.length = some (.ret value plainArgs world') ∧
      plainRun target bc f args.pkt.bytes f.length ⟨filterStart args world, []⟩ =
        some (.ret value plainArgs world', shown) ∧
      checkedRun target bc f args.pkt.bytes dat args.buflen f.length ⟨filterStart args world, []⟩ =
        some (.ret value checkedArgs world', shown) := by
  obtain ⟨accepted⟩ := accepted_of_validate accepted decodes
  obtain ⟨st, fst⟩ := accepted.pass1At_some (optimizeInit old) (le_refl _)
  have scan := pass1At_inv (le_refl _) fst
  have link : Linked f st.dat := ⟨scan.linked, scan.reached⟩
  have transfers : Transfers bc f (ReturnsZero target bc f args.pkt.bytes args.buflen) :=
    returnsZero_transfers accepted positive exact
  have lens := pass2At_inv accepted transfers link (le_refl _)
  refine ⟨_, by rw [optimize, optimizePass1, fst]; rfl, ?_⟩
  obtain ⟨value, plainArgs, checkedArgs, world', shown, plain, chk⟩ :=
    checkedRun_eq (s := filterStart args world) accepted keeps exact positive lens.linked
      (fun i insn len scn fnd isLoad =>
        lens.loads i insn len (by omega) scn fnd isLoad)
      [] (Nat.sub_le _ _) (.start accepted.dataFlow.nonempty) rfl
      (fun fails => not_checkFails_zero (fails.mono (@cutChecked_le _ _ 0 _).1))
  exact ⟨value, plainArgs, checkedArgs, world', shown, run_loggedStep plain, plain, chk⟩

end Meaning

def zeroTarget : Target := ⟨fun _ _ => 0, fun _ _ => 0⟩

def zeroPacket (buflen : Nat) : BpfArgs := ⟨⟨fun _ => 0, []⟩, buflen, buflen, fun _ => 0⟩

def loadsTwice : List BpfInsn :=
  [bpfStmt (Op.ldAbs .b).code 1, bpfStmt (Op.ldAbs .b).code 0, bpfStmt Op.retA.code 0]

theorem optimize_checks_loadsTwice :
    ∃ dat, optimize (none : Option (BpfCtx Unit)) loadsTwice freshData = some dat ∧
      ∃ value plainArgs checkedArgs world' shown,
        bpfFilterExt zeroTarget none (some loadsTwice) (zeroPacket 2) () 3 =
          some (.ret value plainArgs world') ∧
        plainRun zeroTarget none loadsTwice (fun _ => 0) 3 ⟨filterStart (zeroPacket 2) (), []⟩ =
          some (.ret value plainArgs world', shown) ∧
        checkedRun zeroTarget none loadsTwice (fun _ => 0) dat 2 3
            ⟨filterStart (zeroPacket 2) (), []⟩ =
          some (.ret value checkedArgs world', shown) := by
  have decodes : ∀ insn ∈ loadsTwice, ∃ op, decode insn.code = some op := by
    intro insn isMem
    rcases mem_cons.mp isMem with rfl | isMem
    · exact ⟨.ldAbs .b, decode_code (.ldAbs .b)⟩
    rcases mem_cons.mp isMem with rfl | isMem
    · exact ⟨.ldAbs .b, decode_code (.ldAbs .b)⟩
    obtain rfl := mem_singleton.mp isMem
    exact ⟨.retA, decode_code .retA⟩
  exact optimize_checks zeroTarget none loadsTwice (by decide) decodes nofun (zeroPacket 2) ()
    (by decide) (.inl (by decide)) freshData

/-- A load of the last word below 4 GiB and beyond. -/
def loadsFar : List BpfInsn :=
  [bpfStmt (Op.ldAbs .w).code 0xffffffff, bpfStmt Op.retK.code 1]

/-- A load at `X + k`, beyond 4 GiB. -/
def loadsWrapped : List BpfInsn :=
  [bpfStmt Op.ldxImm.code 0xffffffff, bpfStmt (Op.ldInd .b).code 1, bpfStmt Op.retK.code 1]

/-- A load before and after a coprocessor call. -/
def loadsAround : List BpfInsn :=
  [bpfStmt (Op.ldAbs .b).code 1, bpfStmt Op.cop.code 0, bpfStmt (Op.ldAbs .b).code 1,
    bpfStmt Op.retK.code 1]

/-- A coprocessor function that makes `args->buflen` 1. -/
def shortens : BpfCtx Unit :=
  { bpfCreate Unit with
    copfuncs := some fun _ world args a => ⟨a, { args with buflen := 1 }, world⟩
    nfuncs := 1 }

/-- What the interpreter and the generated code return. -/
def returnedBy (bc : Option (BpfCtx Unit)) (f : List BpfInsn) (args : BpfArgs) :
    Option UInt32 × Option UInt32 :=
  ((bpfFilterExt zeroTarget bc (some f) args () f.length).bind Outcome.value?,
    (optimize bc f freshData).bind fun dat =>
      (checkedRun zeroTarget bc f args.pkt.bytes dat args.buflen f.length
        ⟨filterStart args (), []⟩).bind fun result => result.1.value?)

/-- On packets beyond 4 GiB a load that reaches there, or `X + k`, tells the two apart, and so
does a coprocessor that changes the length of the packet. -/
theorem checks_not_exact : bpfValidateExt (none : Option (BpfCtx Unit)) loadsFar = true ∧
      returnedBy none loadsFar (zeroPacket 0x100000003) = (some 1, some 0) ∧
    bpfValidateExt (none : Option (BpfCtx Unit)) loadsWrapped = true ∧
      returnedBy none loadsWrapped (zeroPacket 0x100000002) = (some 0, some 1) ∧
    bpfValidateExt (some shortens) loadsAround = true ∧
      returnedBy (some shortens) loadsAround (zeroPacket 2) = (some 0, some 1) := by
  refine ⟨by decide, ?_, by decide, ?_, by decide, ?_⟩
  · decide
  · decide
  · decide

end NetBSD.Net.Bpf
