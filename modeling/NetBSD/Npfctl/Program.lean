import NetBSD.Npfctl.Meaning

/-!
Owns the program of a whole rule: each stage of `npfctl_build_code` adds one
conjunct to what the code checks, and the completed program returns success exactly
on the packets that the code accepts.
-/

namespace NetBSD.Npfctl

open NetBSD.Net.Bpf NetBSD.Machine List Option

section Stages

variable {view : View} {ctx ctx' : NpfBpf} {p : Prop}

/-! ### Stages in front of the groups -/

theorem Good.proto {af : Option Af} {proto : UInt32} (good : Good view ctx p)
    (out : ctx.ingroup = false) (built : npfctlBpfProto ctx af proto = some ctx') :
    Good view ctx' (p ∧ VersionOk view af ∧ (proto ≠ notGiven → view.l4proto = proto)) ∧
      ctx'.ingroup = false := by
  unfold npfctlBpfProto at built
  split at built
  · simp at built
  rw [fetchL3_false] at built
  obtain ⟨next, got, built⟩ := bind_eq_some_iff.mp built
  obtain ⟨good', outside'⟩ := good.fetchVersion out got
  split at built
  · rename_i noProto
    obtain rfl := some.inj built
    exact ⟨good'.congr (by simp [noProto]), outside'⟩
  rename_i given
  obtain rfl := some.inj built
  have added := good'.add ([insnLdMem bpfMwL4proto] ++ [insnJmp .jeq proto 0 jumpMagic])
    next.xEqL4off true (next.nblocks + 1) sets_ldMem.checks_jeq
  refine ⟨added.congr ?_, outside'⟩
  simp only [and_assoc, ne_eq, given, not_false_eq_true, true_implies]
  rfl

theorem npfctlBpfTcpfl_eq (tf mask : UInt8) (checktcp : Bool) :
    npfctlBpfTcpfl ctx tf mask checktcp = (fetchVersion ctx none).bind fun next =>
      if checktcp = true ∧ next.ingroup = true then none
      else if !checktcp ∧ !next.checkedL4 then none
      else if checktcp then some { next with
        prog := next.prog ++ (xLoad next.xEqL4off ++ ([insnLdMem bpfMwL4proto,
          insnJmp .jeq ipprotoTcp 0 (if mask ≠ tf then 3 else 2)] ++ tcpflInsns tf mask))
        xEqL4off := true }
      else some { next with
        prog := next.prog ++ (xLoad next.xEqL4off ++ tcpflInsns tf mask)
        nblocks := next.nblocks + 1
        xEqL4off := true } := by
  unfold npfctlBpfTcpfl
  rw [fetchL3_true]
  cases fetchVersion ctx none with
  | none => rfl
  | some next =>
    by_cases same : mask = tf <;> cases checktcp <;>
      simp [same, tcpflInsns, addInsns, doneBlock]

theorem Good.tcpfl {tf mask : UInt8} {checktcp : Bool} (good : Good view ctx p)
    (out : ctx.ingroup = false) (built : npfctlBpfTcpfl ctx tf mask checktcp = some ctx') :
    Good view ctx' (p ∧ VersionOk view none ∧
      if checktcp then view.l4proto = ipprotoTcp → FlagsPass view tf mask
      else FlagsPass view tf mask) ∧ ctx'.ingroup = false := by
  rw [npfctlBpfTcpfl_eq] at built
  obtain ⟨next, got, built⟩ := bind_eq_some_iff.mp built
  obtain ⟨good', outside'⟩ := good.fetchVersion out got
  rw [if_neg (by simp [outside'])] at built
  cases checktcp with
  | true =>
    have added := good'.add _ true next.checkedL4 next.nblocks (checks_tcpfl_ifTcp tf mask)
    rw [if_pos rfl] at built
    obtain rfl := some.inj built
    exact ⟨added.congr and_assoc, outside'⟩
  | false =>
    have added := good'.add _ true next.checkedL4 (next.nblocks + 1) (checks_tcpfl tf mask)
    split at built
    · simp at built
    · rw [if_neg (by simp)] at built ⊢
      obtain rfl := some.inj built
      exact ⟨added.congr and_assoc, outside'⟩

/-- The code of an ICMP match checks type and code. -/
theorem Good.icmp {type code : UInt32} (good : Good view ctx p) (out : ctx.ingroup = false)
    (built : npfctlBpfIcmp ctx type code = some ctx') :
    Good view ctx' (p ∧ VersionOk view none ∧ OptsMatch view (some (.icmp type code)) ∧
      ¬ OptsElude view (some (.icmp type code))) ∧
      ctx'.ingroup = false := by
  unfold npfctlBpfIcmp at built
  split at built
  · simp at built
  split at built
  · simp at built
  rename_i given
  rw [fetchL3_true] at built
  obtain ⟨withX, isX, built⟩ := bind_eq_some_iff.mp built
  obtain ⟨next, got, rfl⟩ := map_eq_some_iff.mp isX
  obtain ⟨good', outside'⟩ := good.fetchVersion out got
  obtain rfl := some.inj built
  by_cases hasType : type = notGiven
  · have hasCode : code ≠ notGiven := fun noCode => given ⟨hasType, noCode⟩
    have added := good'.add (xLoad next.xEqL4off ++ [insnLdInd .b 1] ++
        [insnJmp .jeq code 0 jumpMagic]) true next.checkedL4 (next.nblocks + 1)
      sets_ldInd.checks_jeq
    refine ⟨?_, ?_⟩
    · simp [hasType, hasCode, OptsMatch, OptsElude, addInsns] at added ⊢
      exact added.congr and_assoc
    · simp [hasType, hasCode, addInsns, doneBlock, outside']
  have typed := good'.add (xLoad next.xEqL4off ++ [insnLdInd .b 0] ++
      [insnJmp .jeq type 0 jumpMagic]) true next.checkedL4 (next.nblocks + 1)
    sets_ldInd.checks_jeq
  by_cases hasCode : code = notGiven
  · refine ⟨?_, ?_⟩
    · simp [hasType, hasCode, OptsMatch, OptsElude, addInsns] at typed ⊢
      exact typed.congr and_assoc
    · simp [hasType, hasCode, addInsns, doneBlock, outside']
  have added := typed.add (xLoad true ++ [insnLdInd .b 1] ++
      [insnJmp .jeq code 0 jumpMagic]) true next.checkedL4 (next.nblocks + 1 + 1)
    sets_ldInd.checks_jeq
  refine ⟨?_, ?_⟩
  · simp [hasType, hasCode, OptsMatch, OptsElude, addInsns, doneBlock] at added ⊢
    exact added.congr (by simp only [and_assoc])
  · simp [hasType, hasCode, addInsns, doneBlock, outside']

theorem OptProto.given {op : OptProto} (hasOpts : op.opts ≠ none) : op.proto ≠ notGiven := by
  obtain ⟨proto, opts, agree⟩ := op
  cases opts with
  | none => exact absurd rfl hasOpts
  | some opts =>
    cases opts with
    | tcpFlags tf mask =>
      have isTcp : proto = ipprotoTcp := agree
      show proto ≠ notGiven
      rw [isTcp]
      decide
    | icmp type code =>
      show proto ≠ notGiven
      rcases agree.1 with isIcmp | isIcmp
      · rw [isIcmp]
        decide
      · rw [isIcmp]
        decide

/-- The protocol's code checks family and protocol. -/
theorem Good.buildProto {family : Option Af} {op : OptProto} (good : Good view ctx True)
    (out : ctx.ingroup = false) (built : npfctlBuildProto ctx family op = some ctx') :
    Good view ctx' ((family.isSome = true ∨ op.proto ≠ notGiven → VersionOk view family) ∧
      (op.proto ≠ notGiven → view.l4proto = op.proto) ∧ OptsMatch view op.opts ∧
      ¬ OptsElude view op.opts) ∧ ctx'.ingroup = false := by
  obtain ⟨next, versioned, built⟩ := bind_eq_some_iff.mp built
  obtain ⟨good', outside'⟩ : Good view next
      ((family.isSome = true ∨ op.proto ≠ notGiven → VersionOk view family) ∧
        (op.proto ≠ notGiven → view.l4proto = op.proto)) ∧ next.ingroup = false := by
    split at versioned
    · rename_i given
      obtain ⟨good', outside'⟩ := good.proto out versioned
      exact ⟨good'.congr (by simp only [given, true_implies, true_and]), outside'⟩
    · rename_i miss
      obtain rfl := some.inj versioned
      have noProto : ¬ op.proto ≠ notGiven := fun given => miss (Or.inr given)
      exact ⟨good.congr (iff_of_true trivial ⟨fun given => absurd given miss,
        fun given => absurd given noProto⟩), out⟩
  have absorbed : ∀ q, op.opts ≠ none →
      (((family.isSome = true ∨ op.proto ≠ notGiven → VersionOk view family) ∧
        (op.proto ≠ notGiven → view.l4proto = op.proto)) ∧ VersionOk view none ∧ q ↔
      (family.isSome = true ∨ op.proto ≠ notGiven → VersionOk view family) ∧
        (op.proto ≠ notGiven → view.l4proto = op.proto) ∧ q) := by
    intro q hasOpts
    constructor
    · rintro ⟨⟨ver, proto⟩, -, holds⟩
      exact ⟨ver, proto, holds⟩
    · rintro ⟨ver, proto, holds⟩
      exact ⟨⟨ver, proto⟩, (ver (Or.inr (OptProto.given hasOpts))).any, holds⟩
  cases hasOpts : op.opts with
  | none =>
    rw [hasOpts] at built
    obtain rfl := some.inj built
    exact ⟨good'.congr (by simp [OptsMatch, OptsElude]), outside'⟩
  | some opts =>
    rw [hasOpts] at built
    cases opts with
    | tcpFlags tf mask =>
      obtain ⟨good'', outside''⟩ := good'.tcpfl outside' built
      exact ⟨good''.congr (absorbed _ (by simp [hasOpts])), outside''⟩
    | icmp type code =>
      obtain ⟨good'', outside''⟩ := good'.icmp outside' built
      exact ⟨good''.congr (absorbed _ (by simp [hasOpts])), outside''⟩

/-! ### Groups -/

theorem Good.addrs {family : Option Af} {addrs : NetAddr} {side : Side} (good : Good view ctx p)
    (ver : p → family.isSome = true → VersionOk view family)
    (built : npfctlBuildAddrs family addrs side ctx = some ctx') :
    Good view ctx' (p ∧ (addrsCriterion view family side addrs).Accepted) := by
  cases addrs with
  | fams list =>
    have one : OneFamily family list := by
      obtain ⟨opened, begun, built⟩ := bind_eq_some_iff.mp built
      obtain ⟨full, folded, -⟩ := bind_eq_some_iff.mp built
      have pairwise := (foldlM_sameFamily (good.group begun).ingroup folded).2
      intro fam mem oth member'
      obtain ⟨hin, comp⟩ := mem_compiled.mp mem
      obtain ⟨inList', isCompiled'⟩ := mem_compiled.mp member'
      exact pairwise fam hin oth inList' comp isCompiled'
    have chk := good.vars (builds_fams view family side) (fun _ => trivial) built
    refine chk.congr (and_congr_right fun holds => ?_)
    rw [famsChecked_iff]
    exact famsChecked_iff_accepted one (ver holds)
  | tables list =>
    have chk := good.vars (builds_tables view side) (fun _ => trivial) built
    exact chk.congr (and_congr_right fun _ => tablesChecked_iff_accepted list)

theorem Good.ports {ranges : List PortRange} {side : Side} (good : Good view ctx p)
    (ver : p → ranges ≠ [] → VersionOk view none)
    (built : npfctlBuildPorts ranges side ctx = some ctx') :
    Good view ctx' (p ∧ (portsCriterion view side ranges).Accepted) := by
  have chk := good.vars (builds_ports view side) (fun _ several => absurd rfl several) built
  exact chk.congr (and_congr_right fun holds => portsChecked_iff_accepted (ver holds))

theorem Group.proto {all any : Prop} {n : Nat} {proto : UInt32} (group : Group view ctx p all any n)
    (given : proto ≠ notGiven) (built : npfctlBpfProto ctx none proto = some ctx') :
    Group view ctx' (p ∧ VersionOk view none) (all ∧ view.l4proto = proto)
      (any ∨ view.l4proto = proto) (n + 1) := by
  rw [npfctlBpfProto, if_neg (fun miss => given miss.2), fetchL3_false] at built
  obtain ⟨next, got, built⟩ := bind_eq_some_iff.mp built
  rw [if_neg given] at built
  obtain rfl := some.inj built
  exact (group.fetchVersion got).add
    ([insnLdMem bpfMwL4proto] ++ [insnJmp .jeq proto 0 jumpMagic]) next.xEqL4off true
    sets_ldMem.checks_jeq sets_ldMem.offers_jeq (fun _ set => set)

theorem Good.tcpudp (good : Good view ctx p) (built : buildTcpudp ctx = some ctx') :
    Good view ctx' (p ∧ VersionOk view none ∧
      (view.l4proto = ipprotoTcp ∨ view.l4proto = ipprotoUdp)) := by
  obtain ⟨opened, begun, built⟩ := bind_eq_some_iff.mp built
  obtain ⟨tcp, withTcp, built⟩ := bind_eq_some_iff.mp built
  obtain ⟨udp, withUdp, built⟩ := bind_eq_some_iff.mp built
  have group := ((good.group begun).proto (by decide) withTcp).proto (by decide) withUdp
  refine (group.endgroup built).1.congr ?_
  constructor
  · rintro ⟨⟨⟨holds, ver⟩, -⟩, (absurdity | isTcp) | isUdp⟩
    · exact absurdity.elim
    · exact ⟨holds, ver, Or.inl isTcp⟩
    · exact ⟨holds, ver, Or.inr isUdp⟩
  · rintro ⟨holds, ver, isTcp | isUdp⟩
    · exact ⟨⟨⟨holds, ver⟩, ver⟩, Or.inl (Or.inr isTcp)⟩
    · exact ⟨⟨⟨holds, ver⟩, ver⟩, Or.inr isUdp⟩

end Stages

/-! ### The complete program -/

/-- What the kernel returns for a program, with as many steps as it has instructions. -/
def filterValue {Addr : Type} (target : Target) (code : Option (List BpfInsn)) (args : BpfArgs)
    (kernel : Net.Npf.Kernel Addr) : Option UInt32 :=
  (bpfFilterExt target (some Net.Npf.npfBpfctx) code args kernel (code.getD []).length).bind
    Outcome.value?

section Complete

variable {Addr : Type} (target : Target) {args : BpfArgs} {kernel : Net.Npf.Kernel Addr}
  {ctx : NpfBpf} {code : Option (List BpfInsn)} {p : Prop}

theorem Checks.exec_complete {view : View} {prog fixed : List BpfInsn} {y : Bool}
    (checks : Checks view prog false y p) (done : fixupInsns false prog = some fixed) :
    ∃ v, exec view (fixed ++ [insnRet npfBpfSuccess, insnRet npfBpfFailure]) ⟨0, 0⟩ =
      .returned v ∧ (v ≠ 0 ↔ p) := by
  obtain ⟨pss, fails⟩ := checks ⟨0, 0⟩ (fun absurdity => Bool.noConfusion absurdity)
  have split : fixed ++ [insnRet npfBpfSuccess, insnRet npfBpfFailure] =
      fixed ++ [insnRet npfBpfSuccess] ++ [insnRet npfBpfFailure] := by simp
  have landed := fun tame => @exec_fixup false view prog fixed ⟨0, 0⟩ done (insnRet npfBpfSuccess) tame
  rw [map_swapInsn_false] at landed
  rw [split]
  by_cases holds : p
  · obtain ⟨r', -, fell⟩ := pss holds
    have fst : exec view (fixed ++ [insnRet npfBpfSuccess]) ⟨0, 0⟩ = .returned npfBpfSuccess := by
      rw [landed (by simp [fell]), fell]
      exact exec_ret
    rw [exec_append (by simp [fst]), fst]
    exact ⟨npfBpfSuccess, rfl, iff_of_true (by decide) holds⟩
  refine ⟨npfBpfFailure, ?_, iff_of_false (by decide) holds⟩
  rcases fails holds with ⟨r', escaped⟩ | ret
  · have fst : exec view (fixed ++ [insnRet npfBpfSuccess]) ⟨0, 0⟩ = .fell r' := by
      rw [landed (by simp [escaped]), escaped]
      rfl
    rw [exec_append (by simp [fst]), fst]
    exact exec_ret
  have fst : exec view (fixed ++ [insnRet npfBpfSuccess]) ⟨0, 0⟩ = .returned npfBpfFailure := by
    rw [landed (by simp [ret]), ret]
    rfl
  rw [exec_append (by simp [fst]), fst]
  rfl

theorem Good.complete (good : Good (viewOf args kernel) ctx p)
    (built : npfctlBpfComplete ctx = some code)
    (long : LongEnough args (code.getD [])) :
    ∃ v, filterValue target code args kernel = some v ∧ (v ≠ 0 ↔ p) := by
  simp only [npfctlBpfComplete] at built
  split at built
  · rename_i empty
    obtain rfl := some.inj built
    have checks := good.checks
    rw [eq_nil_of_length_eq_zero empty] at checks
    exact ⟨0xffffffff, rfl, iff_of_true (by decide) checks.of_nil⟩
  simp only [fixupJumps, addInsns, drop_zero, take_zero, nil_append,
    take_left', drop_left'] at built
  cases done : fixupInsns false ctx.prog with
  | none => simp [done] at built
  | some fixed =>
    simp only [done, bind_eq_bind, bind_some, some.injEq] at built
    subst built
    have long' : LongEnough args (fixed ++ [insnRet npfBpfSuccess, insnRet npfBpfFailure]) := long
    obtain ⟨v, ret, isSuccess⟩ := good.checks.exec_complete done
    have ran := @run_exec _ target _ args kernel long' 0 ⟨0, 0⟩ v ret
    refine ⟨v, ?_, isSuccess⟩
    have whole : bpfFilterExt target (some Net.Npf.npfBpfctx)
        (some (fixed ++ [insnRet npfBpfSuccess, insnRet npfBpfFailure])) args kernel
        (fixed ++ [insnRet npfBpfSuccess, insnRet npfBpfFailure]).length =
          some (.ret v args kernel) := ran
    rw [filterValue, getD_some, whole]
    rfl

end Complete

/-! ### Rules -/

section Rules

variable {view : View} {rule : Rule} {ctx ctx' : NpfBpf}

/-- An empty rule accepts every packet. -/
theorem Rule.accepts_of_isNull (isNull : rule.isNull = true) : rule.Accepts view := by
  have null := isNull
  simp only [Rule.isNull, Bool.and_eq_true, isNone_iff_eq_none, beq_iff_eq,
    List.isEmpty_iff] at null
  obtain ⟨⟨⟨⟨noFamily, noProto⟩, noOpts⟩, noSrc, noDst⟩, noSports, noDports⟩ := null
  have noAddrs : ∀ {addrs : NetAddr} {side : Side}, addrs.isNull = true →
      (addrsCriterion view rule.family side addrs).Accepted := by
    intro addrs side isNull
    cases addrs with
    | fams list =>
      obtain rfl : list = [] := isEmpty_iff.mp isNull
      refine Or.inr ⟨Or.inl rfl, ?_⟩
      rintro ⟨⟨fam, mem, -⟩, -⟩
      cases mem
    | tables list =>
      obtain rfl : list = [] := isEmpty_iff.mp isNull
      exact Or.inr ⟨Or.inl rfl, id⟩
  have noPorts : ∀ {ranges : List PortRange} {side : Side}, ranges = [] →
      (portsCriterion view side ranges).Accepted :=
    fun empty => Or.inr ⟨Or.inl empty, id⟩
  have notGivenProto : ¬ rule.op.proto ≠ notGiven := not_not.mpr noProto
  refine ⟨⟨?_, fun given => absurd given notGivenProto, ?_, ?_, ?_⟩, ?_, ?_⟩
  · rintro (given | given)
    · simp [noFamily] at given
    · exact absurd given notGivenProto
  · rw [noOpts]
    trivial
  · rintro ⟨-, specified, -⟩
    exact absurd isNull specified
  · rintro ⟨given | given, -⟩
    · exact absurd noSports given
    · exact absurd noDports given
  · rw [noOpts]
    exact id
  · simp only [Rule.lists, forall_mem_cons]
    exact ⟨noAddrs noSrc, noAddrs noDst, noPorts noSports, noPorts noDports, by simp⟩

theorem Good.stateful {p : Prop} (good : Good view ctx p) (out : ctx.ingroup = false)
    (proto : p → rule.op.proto ≠ notGiven → view.l4proto = rule.op.proto)
    (specified : ¬ rule.isNull = true)
    (built : (if rule.stateful = true ∧
        (rule.op.proto = notGiven ∨ (rule.op.proto = ipprotoTcp ∧ rule.op.opts = none))
      then npfctlBpfTcpfl ctx thSyn (thSyn ||| thAck ||| thFin ||| thRst)
        (rule.op.proto == notGiven)
      else some ctx) = some ctx') :
    Good view ctx' (p ∧ (rule.impliesFlags → VersionOk view none ∧ (view.l4proto = ipprotoTcp →
        FlagsMatch view thSyn (thSyn ||| thAck ||| thFin ||| thRst)))) := by
  split at built
  · rename_i implied
    have implies : rule.impliesFlags := ⟨implied.1, specified, implied.2⟩
    refine (good.tcpfl out built).1.congr (and_congr_right fun holds => ?_)
    simp only [implies, true_implies, flagsPass_of_ne
      (show ¬ thSyn ||| thAck ||| thFin ||| thRst = thSyn by decide)]
    rcases implied.2 with miss | ⟨isTcp, -⟩
    · rw [if_pos (beq_iff_eq.mpr miss)]
    have given : rule.op.proto ≠ notGiven := by
      rw [isTcp]
      decide
    have ofTcp := (proto holds given).trans isTcp
    rw [if_neg (by simpa using given)]
    simp only [ofTcp, true_implies]
  · rename_i notImplied
    obtain rfl := some.inj built
    refine good.congr (and_iff_left ?_).symm
    exact fun implies => absurd ⟨implies.1, implies.2.2⟩ notImplied

theorem noports_iff :
    (!(rule.srcPorts.isEmpty && rule.dstPorts.isEmpty)) = true ∧ rule.op.proto = notGiven ↔
      rule.impliesTcpudp := by
  simp only [Rule.impliesTcpudp, Bool.not_eq_true', Bool.and_eq_false_iff, isEmpty_eq_false_iff,
    ne_eq]

theorem Good.impliedTcpudp {p : Prop} (good : Good view ctx p)
    (built : (if (!(rule.srcPorts.isEmpty && rule.dstPorts.isEmpty)) = true ∧
        rule.op.proto = notGiven then buildTcpudp ctx else some ctx) = some ctx') :
    Good view ctx' (p ∧ (rule.impliesTcpudp → VersionOk view none ∧
      (view.l4proto = ipprotoTcp ∨ view.l4proto = ipprotoUdp))) := by
  split at built
  · rename_i needed
    refine (good.tcpudp built).congr ?_
    simp only [noports_iff.mp needed, true_implies]
  · rename_i notNeeded
    obtain rfl := some.inj built
    refine good.congr (and_iff_left ?_).symm
    exact fun implies => absurd (noports_iff.mpr implies) notNeeded

theorem Rule.versionOk_of_ports (rule : Rule)
    (family : rule.family.isSome = true ∨ rule.op.proto ≠ notGiven → VersionOk view rule.family)
    (tcpudp : rule.impliesTcpudp → VersionOk view none ∧
      (view.l4proto = ipprotoTcp ∨ view.l4proto = ipprotoUdp))
    (given : rule.srcPorts ≠ [] ∨ rule.dstPorts ≠ []) : VersionOk view none := by
  by_cases noProto : rule.op.proto = notGiven
  · exact (tcpudp ⟨given, noProto⟩).1
  · exact (family (Or.inr noProto)).any

/-- The whole program decides as the rule does. -/
theorem npfctlBuildCode_accepts {Addr : Type} (target : Target) {code : Option (List BpfInsn)}
    (built : npfctlBuildCode rule = some code) (args : BpfArgs) (kernel : Net.Npf.Kernel Addr)
    (long : LongEnough args (code.getD [])) :
    ∃ v, filterValue target code args kernel = some v ∧
      (v ≠ 0 ↔ rule.Accepts (viewOf args kernel)) := by
  simp only [npfctlBuildCode] at built
  split at built
  · rename_i isNull
    obtain rfl := some.inj built
    exact ⟨0xffffffff, rfl, iff_of_true (by decide) (Rule.accepts_of_isNull isNull)⟩
  rename_i specified
  split at built
  · simp at built
  obtain ⟨bc₁, built₁, built⟩ := bind_eq_some_iff.mp built
  obtain ⟨bc₂, built₂, built⟩ := bind_eq_some_iff.mp built
  obtain ⟨bc₃, built₃, built⟩ := bind_eq_some_iff.mp built
  obtain ⟨bc₄, built₄, built⟩ := bind_eq_some_iff.mp built
  obtain ⟨bc₅, built₅, built⟩ := bind_eq_some_iff.mp built
  obtain ⟨bc₆, built₆, built⟩ := bind_eq_some_iff.mp built
  obtain ⟨bc₇, built₇, built⟩ := bind_eq_some_iff.mp built
  obtain ⟨good₁, out⟩ := (@good_create (viewOf args kernel)).buildProto rfl built₁
  have good₂ := good₁.stateful out (fun holds => holds.2.1) specified built₂
  have good₃ := good₂.addrs (fun holds given => holds.1.1 (Or.inl given)) built₃
  have good₄ := good₃.addrs (fun holds given => holds.1.1.1 (Or.inl given)) built₄
  have good₅ := good₄.impliedTcpudp built₅
  have good₆ := good₅.ports (fun holds given =>
    rule.versionOk_of_ports holds.1.1.1.1.1 holds.2 (Or.inl given)) built₆
  have good₇ := good₆.ports (fun holds given =>
    rule.versionOk_of_ports holds.1.1.1.1.1.1 holds.1.2 (Or.inr given)) built₇
  obtain ⟨v, ret, isSuccess⟩ := good₇.complete target built long
  refine ⟨v, ret, isSuccess.trans ?_⟩
  simp only [Rule.Accepts, Rule.lists, forall_mem_cons]
  constructor
  · rintro ⟨⟨⟨⟨⟨⟨⟨family, proto, opts, fnd⟩, flags⟩, src⟩, dst⟩, tcpudp⟩, sports⟩, dports⟩
    exact ⟨⟨family, proto, opts, flags, tcpudp⟩, fnd, src, dst, sports, dports, by simp⟩
  · rintro ⟨⟨family, proto, opts, flags, tcpudp⟩, fnd, src, dst, sports, dports, -⟩
    exact ⟨⟨⟨⟨⟨⟨⟨family, proto, opts, fnd⟩, flags⟩, src⟩, dst⟩, tcpudp⟩, sports⟩, dports⟩

/-- On a packet that `npf_bpf_prepare` has set up, the program of a rule decides by the version, the
header length and the protocol that the packet filter found, whatever the words held before. -/
theorem npfctlBuildCode_prepared {Addr : Type} (target : Target) {code : Option (List BpfInsn)}
    (built : npfctlBuildCode rule = some code) (kernel : Net.Npf.Kernel Addr) (pkt : Pkt)
    (pktlen : Nat) (mem : Nat → UInt32)
    (long : LongEnough (Net.Npf.npfBpfPrepare kernel pkt pktlen mem) (code.getD [])) :
    ∃ v view, view.ipver = Net.Npf.npcVersion kernel.npc_alen ∧ view.l4off = kernel.npc_hlen ∧
      view.l4proto = kernel.npc_proto ∧
      filterValue target code (Net.Npf.npfBpfPrepare kernel pkt pktlen mem) kernel = some v ∧
      (v ≠ 0 ↔ rule.Accepts view) := by
  obtain ⟨isVersion, isOffset, isProto, -⟩ := Net.Npf.npfBpfPrepare_words kernel pkt pktlen mem
  obtain ⟨v, ret, isSuccess⟩ := npfctlBuildCode_accepts target built _ kernel long
  exact ⟨v, viewOf (Net.Npf.npfBpfPrepare kernel pkt pktlen mem) kernel, isVersion, isOffset,
    isProto, ret, isSuccess⟩

theorem Rule.accepts_iff_matches (rule : Rule) (view : View) :
    (rule.Accepts view ↔ rule.Matches view) ↔
      ¬ rule.Overmatched view ∧ ¬ rule.Undermatched view := by
  constructor
  · intro same
    refine ⟨?_, ?_⟩
    · rintro ⟨header, fnd, acc, criterion, mem, excess⟩
      exact criterion.unmet_of_excess excess ((same.mp ⟨header, fnd, acc⟩).2 criterion mem)
    · rintro ⟨header, met, elude | ⟨criterion, mem, deficit⟩⟩
      · exact (same.mpr ⟨header, met⟩).2.1 elude
      rcases (same.mpr ⟨header, met⟩).2.2 criterion mem with excess | ⟨-, notUnder⟩
      · exact criterion.unmet_of_excess excess (met criterion mem)
      · exact notUnder deficit
  rintro ⟨notOver, notUnder⟩
  constructor
  · rintro ⟨header, fnd, acc⟩
    refine ⟨header, fun criterion mem => ?_⟩
    rcases acc criterion mem with excess | ⟨met, -⟩
    · exact absurd ⟨header, fnd, acc, criterion, mem, excess⟩ notOver
    · exact met
  · rintro ⟨header, met⟩
    refine ⟨header, fun elude => notUnder ⟨header, met, .inl elude⟩,
      fun criterion mem => Or.inr ⟨met criterion mem, fun deficit => ?_⟩⟩
    exact notUnder ⟨header, met, .inr ⟨criterion, mem, deficit⟩⟩

end Rules

/-- The program returns, and not zero exactly if the packet satisfies the rule. -/
def PreservesMeaning {Addr : Type} (target : Target) (rule : Rule) (code : Option (List BpfInsn))
    (args : BpfArgs) (kernel : Net.Npf.Kernel Addr) : Prop :=
  ∃ value, filterValue target code args kernel = some value ∧
    (value ≠ 0 ↔ rule.Matches (viewOf args kernel))

/-- The compiler preserves the meaning of a rule on exactly the packets that it does
not over-match or under-match. -/
theorem npfctlBuildCode_preservesMeaning_iff {Addr : Type} (target : Target) (rule : Rule)
    (code : Option (List BpfInsn)) (built : npfctlBuildCode rule = some code) (args : BpfArgs)
    (kernel : Net.Npf.Kernel Addr) (long : LongEnough args (code.getD [])) :
    PreservesMeaning target rule code args kernel ↔
      ¬ rule.Overmatched (viewOf args kernel) ∧ ¬ rule.Undermatched (viewOf args kernel) := by
  obtain ⟨v, ret, isSuccess⟩ := npfctlBuildCode_accepts target built args kernel long
  rw [← Rule.accepts_iff_matches]
  constructor
  · rintro ⟨res, returns', isMatch⟩
    obtain rfl := some.inj (ret.symm.trans returns')
    exact isSuccess.symm.trans isMatch
  · intro same
    exact ⟨v, ret, isSuccess.trans same⟩

def tcpRule (srcPorts dstPorts : List PortRange) : Rule :=
  ⟨some .inet, ⟨ipprotoTcp, none, trivial⟩, false, .fams [], .fams [], srcPorts, dstPorts⟩

/-- An IPv4 packet with TCP ports 25 and 80 behind a header of 20 bytes. -/
def tcpPacket : BpfArgs :=
  ⟨⟨fun i => if i = 21 then 25 else if i = 23 then 80 else 0, []⟩, 40, 40,
    fun i => if i = 0 then 4 else if i = 1 then 20 else 6⟩

def noTables : Net.Npf.Kernel Unit := ⟨4, 20, 6, fun _ => (), fun _ => none⟩

theorem npfctlBuildCode_preservesMeaning_onePort :
    ∃ code, npfctlBuildCode (tcpRule [] [⟨80, 80, by decide⟩]) = some code ∧
      LongEnough tcpPacket (code.getD []) ∧
      PreservesMeaning ⟨fun _ _ => 0, fun _ _ => 0⟩ (tcpRule [] [⟨80, 80, by decide⟩]) code
        tcpPacket noTables := by
  have long : LongEnough tcpPacket
      (((npfctlBuildCode (tcpRule [] [⟨80, 80, by decide⟩])).getD none).getD []) := by
    unfold LongEnough
    decide
  refine ⟨_, rfl, long, ?_⟩
  refine (npfctlBuildCode_preservesMeaning_iff _ _ _ rfl _ _ long).mpr ⟨?_, ?_⟩
  · rintro ⟨-, -, -, criterion, mem, excess⟩
    rcases mem_cons.mp mem with rfl | mem
    · exact excess.1 rfl
    rcases mem_cons.mp mem with rfl | mem
    · exact excess.1 rfl
    · rcases mem_cons.mp mem with rfl | mem
      · exact absurd excess.2.1 (by decide)
      · rcases mem_cons.mp mem with rfl | mem
        · exact absurd excess.2.1 (by decide)
        · cases mem
  rintro ⟨-, -, elude | ⟨criterion, mem, deficit⟩⟩
  · exact elude
  rcases mem_cons.mp mem with rfl | mem
  · exact deficit.2.1 rfl
  rcases mem_cons.mp mem with rfl | mem
  · exact deficit.2.1 rfl
  · rcases mem_cons.mp mem with rfl | mem
    · exact deficit
    · rcases mem_cons.mp mem with rfl | mem
      · exact deficit
      · cases mem

/-- Of two ranges the first lets every port through. -/
def twoRanges : Rule := tcpRule [⟨10, 20, by decide⟩, ⟨30, 40, by decide⟩] []

/-- A packet from a port outside both ranges is let through. -/
theorem npfctlBuildCode_twoRanges :
    ¬ ∀ (target : Target) (rule : Rule) (code : Option (List BpfInsn)) (args : BpfArgs)
      (kernel : Net.Npf.Kernel Unit), npfctlBuildCode rule = some code →
      LongEnough args (code.getD []) → PreservesMeaning target rule code args kernel := by
  intro claim
  have long : LongEnough tcpPacket (((npfctlBuildCode twoRanges).getD none).getD []) := by
    unfold LongEnough
    decide
  obtain ⟨v, ret, isMatch⟩ :=
    claim ⟨fun _ _ => 0, fun _ _ => 0⟩ twoRanges _ tcpPacket noTables rfl long
  have acc : filterValue ⟨fun _ _ => 0, fun _ _ => 0⟩ ((npfctlBuildCode twoRanges).getD none)
      tcpPacket noTables = some 0xffffffff := by decide
  have val : v = 0xffffffff := some.inj (ret.symm.trans acc)
  obtain ⟨-, met⟩ := isMatch.mp (by rw [val]; decide)
  have sports : (portsCriterion (viewOf tcpPacket noTables) .src twoRanges.srcPorts).met :=
    met _ (by simp [Rule.lists])
  rcases sports with empty | ⟨range, mem, contains⟩
  · cases empty
  rcases mem_cons.mp mem with rfl | mem
  · exact absurd contains.2 (by decide)
  · rcases mem_cons.mp mem with rfl | mem
    · exact absurd contains.1 (by decide)
    · cases mem

end NetBSD.Npfctl
