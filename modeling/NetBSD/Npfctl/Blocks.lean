import NetBSD.Npfctl.Segment

/-!
Owns the rule compiler of `usr.sbin/npf/npfctl/npf_build.c`: the filter options
of a rule as the parser hands them over, and `npfctl_build_code`, which turns
them into one BPF program.
-/

namespace NetBSD.Npfctl

open NetBSD.Net.Bpf List Compare

/-! ### Filter options -/

/-- The bits of the address word at `index` that a prefix of the given length covers. -/
def wordMask (length index : Nat) : UInt32 :=
  if 32 * (index + 1) ≤ length then 0xffffffff
  else if 32 * index < length then 0xffffffff <<< UInt32.ofNat (32 * (index + 1) - length)
  else 0

/-- No bit is set beyond the prefix. -/
def ZeroBeyond (length : Nat) (words : List UInt32) : Prop :=
  ∀ index (h : index < words.length), words[index] &&& wordMask length index = words[index]

instance (length : Nat) (words : List UInt32) : Decidable (ZeroBeyond length words) :=
  inferInstanceAs (Decidable (∀ index (_ : index < words.length), _))

structure FamAddrMask where
  family : Af
  addr : NpfAddr
  mask : UInt8
  ifindex : Nat
  zeroBeyond : ZeroBeyond (prefixLength family mask) (addr.words family)

/-- `port_range_t`, in host byte order. -/
structure PortRange where
  start : UInt16
  stop : UInt16
  ordered : start ≤ stop

/-- A table identifier: tables are numbered from zero as they are declared. -/
structure TableId where
  tid : UInt32
  small : tid < srcFlagBit

/-- `ap_netaddr`: a list of addresses or a list of tables. -/
inductive NetAddr where
  | fams (list : List FamAddrMask)
  | tables (list : List TableId)

/-- Whether the source has a NULL pointer there. -/
def NetAddr.isNull : NetAddr → Bool
  | .fams list => list.isEmpty
  | .tables list => list.isEmpty

inductive ProtoOpts where
  | tcpFlags (tf mask : UInt8)
  | icmp (type code : UInt32)
  deriving DecidableEq, Repr

/-- `opt_proto_t`. The grammar gives options only to the protocol they belong to. -/
structure OptProto where
  proto : UInt32
  opts : Option ProtoOpts
  agree : match opts with
    | none => True
    | some (.tcpFlags _ _) => proto = ipprotoTcp
    | some (.icmp type code) => (proto = ipprotoIcmp ∨ proto = ipprotoIcmpv6) ∧
        ¬ (type = notGiven ∧ code = notGiven)

/-- What `npfctl_build_code` reads of a rule. -/
structure Rule where
  family : Option Af
  op : OptProto
  stateful : Bool
  srcAddr : NetAddr
  dstAddr : NetAddr
  srcPorts : List PortRange
  dstPorts : List PortRange

/-! ### Compilation -/

def npfctlBuildFam (ctx : NpfBpf) (family : Option Af) (fam : FamAddrMask) (side : Side) :
    Option NpfBpf :=
  if family.isSome ∧ family ≠ some fam.family then
    if fam.ifindex = 0 then none else some ctx
  else if fam.mask = 0 then
    -- Optimise 0.0.0.0/0 case to be NOP.
    if fam.addr ≠ ⟨0, 0, 0, 0⟩ then none else some ctx
  else npfctlBpfCidr ctx side fam.family fam.addr fam.mask

def npfctlBuildVars {ε : Type} (build : NpfBpf → ε → Option NpfBpf) (vars : List ε)
    (ctx : NpfBpf) : Option NpfBpf := do
  let ctx ← npfctlBpfGroup ctx
  let ctx ← vars.foldlM build ctx
  npfctlBpfEndgroup ctx

def npfctlBuildAddrs (family : Option Af) (addrs : NetAddr) (side : Side) (ctx : NpfBpf) :
    Option NpfBpf :=
  match addrs with
  | .fams list => npfctlBuildVars (fun ctx fam => npfctlBuildFam ctx family fam side) list ctx
  | .tables list => npfctlBuildVars (fun ctx table => some (npfctlBpfTable ctx side table.tid)) list ctx

def npfctlBuildPorts (ports : List PortRange) (side : Side) (ctx : NpfBpf) : Option NpfBpf :=
  npfctlBuildVars (fun ctx range => npfctlBpfPorts ctx side range.start range.stop) ports ctx

def npfctlBuildProto (ctx : NpfBpf) (family : Option Af) (op : OptProto) : Option NpfBpf := do
  let ctx ← (if family.isSome ∨ op.proto ≠ notGiven then npfctlBpfProto ctx family op.proto
    else some ctx)
  match op.opts with
  | none => some ctx
  | some (.tcpFlags tf mask) => npfctlBpfTcpfl ctx tf mask false
  | some (.icmp type code) => npfctlBpfIcmp ctx type code

def thFin : UInt8 := 0x01
def thSyn : UInt8 := 0x02
def thRst : UInt8 := 0x04
def thAck : UInt8 := 0x10

/-- The TCP or UDP check for ports without a protocol. -/
def buildTcpudp (ctx : NpfBpf) : Option NpfBpf := do
  let ctx ← npfctlBpfGroup ctx
  let ctx ← npfctlBpfProto ctx none ipprotoTcp
  let ctx ← npfctlBpfProto ctx none ipprotoUdp
  npfctlBpfEndgroup ctx

def Rule.isNull (rule : Rule) : Bool :=
  (rule.family.isNone && rule.op.proto == notGiven && rule.op.opts.isNone) &&
    (rule.srcAddr.isNull && rule.dstAddr.isNull) &&
    (rule.srcPorts.isEmpty && rule.dstPorts.isEmpty)

def npfctlBuildCode (rule : Rule) : Option (Option (List BpfInsn)) := do
  let noports := rule.srcPorts.isEmpty && rule.dstPorts.isEmpty
  let proto := rule.op.proto
  if rule.isNull then some none
  else if !noports ∧ proto ≠ ipprotoTcp ∧ proto ≠ ipprotoUdp ∧ proto ≠ notGiven then none
  else
    let bc := npfctlBpfCreate
    let bc ← npfctlBuildProto bc rule.family rule.op
    let bc ← (if rule.stateful ∧ (proto = notGiven ∨ (proto = ipprotoTcp ∧ rule.op.opts = none))
      then npfctlBpfTcpfl bc thSyn (thSyn ||| thAck ||| thFin ||| thRst) (proto == notGiven)
      else some bc)
    let bc ← npfctlBuildAddrs rule.family rule.srcAddr .src bc
    let bc ← npfctlBuildAddrs rule.family rule.dstAddr .dst bc
    let bc ← (if !noports ∧ proto = notGiven then buildTcpudp bc else some bc)
    let bc ← npfctlBuildPorts rule.srcPorts .src bc
    let bc ← npfctlBuildPorts rule.dstPorts .dst bc
    npfctlBpfComplete bc

/-!
### Two readings of a block

The two readings of each block of the generator: the IP version, the protocol,
a CIDR, a port range, the TCP flags, an ICMP type or code and a table.
-/

/-! ### Straight-line loads -/

section Loads

variable {view : View} {x : Bool} {k : UInt32}

theorem sets_ldMem : Sets view [insnLdMem k] x x (view.mem k.toNat) :=
  ⟨by simp, fun r held => ⟨⟨view.mem k.toNat, r.x⟩, held, rfl, by simp⟩⟩

theorem sets_ldAbs : Sets view [insnLdAbs k] x x (view.word k) :=
  ⟨by simp, fun r held => ⟨⟨view.word k, r.x⟩, held, rfl, by simp⟩⟩

theorem sets_ldAbs_and {mask : UInt32} :
    Sets view [insnLdAbs k, insnAnd mask] x x (view.word k &&& mask) :=
  ⟨by simp, fun r held => ⟨⟨view.word k &&& mask, r.x⟩, held, rfl, by simp⟩⟩

theorem sets_table : Sets view [insnLdImm k, insnCop npfCopTable] x x (view.table k) :=
  ⟨by simp, fun r held => ⟨⟨view.table k, r.x⟩, held, rfl, by simp⟩⟩

/-- The load of the layer 4 offset into `X`, where it is not there yet. -/
def xLoad (flag : Bool) : List BpfInsn := if flag then [] else [insnLdxMem bpfMwL4off]

theorem exec_xLoad {r : Regs} (held : XEq view x r) (tl : List BpfInsn) :
    exec view (xLoad x ++ tl) r = exec view tl { r with x := view.l4off } := by
  cases x with
  | false =>
    simp only [xLoad, Bool.false_eq_true, if_false, singleton_append, exec_ldxMem]
    rfl
  | true =>
    have atL4 : r.x = view.l4off := held rfl
    rw [← atL4]
    rfl

theorem sets_ldInd {size : Size} :
    Sets view (xLoad x ++ [insnLdInd size k]) x true (view.l4 size k) := by
  refine ⟨by cases x <;> simp [xLoad], fun r held => ⟨⟨view.l4 size k, view.l4off⟩, ?_, rfl, ?_⟩⟩
  · exact fun _ => rfl
  · rw [exec_xLoad held, exec_ldInd rfl, exec_nil]

theorem sets_ldInd_and {size : Size} {mask : UInt32} :
    Sets view (xLoad x ++ [insnLdInd size k, insnAnd mask]) x true (view.l4 size k &&& mask) := by
  refine ⟨by cases x <;> simp [xLoad],
    fun r held => ⟨⟨view.l4 size k &&& mask, view.l4off⟩, ?_, rfl, ?_⟩⟩
  · exact fun _ => rfl
  · rw [exec_xLoad held, exec_ldInd rfl, exec_and, exec_nil]

end Loads

section Single

variable {view : View} {code : List BpfInsn} {x y : Bool} {v k : UInt32}

section

variable (sets : Sets view code x y v)

include sets

theorem Sets.checks_jeq : Checks view (code ++ [insnJmp .jeq k 0 jumpMagic]) x y (v = k) :=
  (sets.checks [⟨.jeq, k, true⟩]).congr (by simp [Compare.Holds, jmpTest])

theorem Sets.offers_jeq : Offers view (code ++ [insnJmp .jeq k 0 jumpMagic]) x y (v = k) :=
  (sets.offers [⟨.jeq, k, true⟩]).congr (by simp [Compare.Holds, jmpTest])

theorem Sets.checks_jne : Checks view (code ++ [insnJmp .jeq k jumpMagic 0]) x y (v ≠ k) :=
  (sets.checks [⟨.jeq, k, false⟩]).congr (by simp [Compare.Holds, jmpTest])

theorem Sets.offers_jne : Offers view (code ++ [insnJmp .jeq k jumpMagic 0]) x y (v ≠ k) :=
  (sets.offers [⟨.jeq, k, false⟩]).congr (by simp [Compare.Holds, jmpTest])

end

end Single

/-! ### IP version -/

/-- The packet is of the family; of any, if none is given. -/
def VersionOk (view : View) : Option Af → Prop
  | some af => view.ipver = af.version
  | none => view.ipver ≠ 0

variable {view : View}

theorem VersionOk.any {af : Option Af} (ok : VersionOk view af) : VersionOk view none := by
  cases af with
  | none => exact ok
  | some family =>
    have isVersion : view.ipver = family.version := ok
    show view.ipver ≠ 0
    rw [isVersion]
    cases family <;> decide

theorem checks_insnsAf (view : View) (af : Option Af) (x : Bool) :
    Checks view (insnsAf af) x x (VersionOk view af) := by
  cases af with
  | none => exact sets_ldMem.checks_jne
  | some family => exact sets_ldMem.checks_jeq

/-! ### CIDR -/

/-- The word at `index` of the packet's address agrees with the CIDR under its mask. -/
def WordAgrees (view : View) (off : UInt32) (length : Nat) (words : List UInt32) (index : Nat)
    (inside : index < words.length) : Prop :=
  view.word (off + 4 * UInt32.ofNat index) &&& wordMask length index =
    words[index] &&& wordMask length index

theorem wordMask_succ (length index : Nat) :
    wordMask length (index + 1) = wordMask (length - 32) index := by
  unfold wordMask
  split_ifs <;> first
    | rfl
    | omega
    | (congr 2; omega)

theorem ZeroBeyond.tail {length : Nat} {word : UInt32} {tl : List UInt32}
    (zero : ZeroBeyond length (word :: tl)) : ZeroBeyond (length - 32) tl := by
  intro index lt
  have atNext := zero (index + 1) (by simpa using lt)
  rwa [wordMask_succ] at atNext

variable {words : List UInt32}

section Cidr

variable {view : View} {off : UInt32} {length : Nat} {word : UInt32} {tl : List UInt32}

theorem wordAgrees_succ {index : Nat} (lt : index + 1 < (word :: tl).length)
    (mem : index < tl.length) : WordAgrees view off length (word :: tl) (index + 1) lt ↔
      WordAgrees view (off + 4) (length - 32) tl index mem := by
  unfold WordAgrees
  have shd : off + 4 * UInt32.ofNat (index + 1) = off + 4 + 4 * UInt32.ofNat index := by
    rw [UInt32.ofNat_add, UInt32.mul_add, UInt32.add_comm (4 * _), ← UInt32.add_assoc]
    rfl
  rw [wordMask_succ, shd]
  rfl

theorem wordAgrees_short {index : Nat} (lt : index < words.length)
    (short : length ≤ 32 * index) : WordAgrees view off length words index lt := by
  have noMask : wordMask length index = 0 := by
    rw [wordMask, if_neg (by omega), if_neg (by omega)]
  simp [WordAgrees, noMask]

theorem cidrInsns_cons (x : Bool) (pos : length ≠ 0) (zero : ZeroBeyond length (word :: tl))
    (lt : 0 < (word :: tl).length) : ∃ load v, Sets view load x x v ∧
      (v = word ↔ WordAgrees view off length (word :: tl) 0 lt) ∧
      cidrInsns off length (word :: tl) =
        (load ++ [insnJmp .jeq word 0 jumpMagic]) ++ cidrInsns (off + 4) (length - 32) tl := by
  have inPrefix : word &&& wordMask length 0 = word := zero 0 lt
  have agree : WordAgrees view off length (word :: tl) 0 lt ↔
      view.word off &&& wordMask length 0 = word := by
    simp [WordAgrees, inPrefix]
  rw [agree, cidrInsns]
  by_cases full : 32 ≤ length
  · have mask : wordMask length 0 = 0xffffffff := if_pos (by omega)
    refine ⟨[insnLdAbs off], view.word off, sets_ldAbs, ?_, ?_⟩
    · have whole : view.word off &&& 0xffffffff = view.word off := UInt32.and_neg_one
      rw [mask, whole]
    · rw [if_pos full]
      rfl
  have mask : wordMask length 0 = 0xffffffff <<< UInt32.ofNat (32 - length) := by
    rw [wordMask, if_neg (by omega), if_pos (by omega)]
  refine ⟨[insnLdAbs off, insnAnd (0xffffffff <<< UInt32.ofNat (32 - length))],
    view.word off &&& 0xffffffff <<< UInt32.ofNat (32 - length), sets_ldAbs_and, ?_, ?_⟩
  · rw [mask]
  · rw [if_neg full, if_pos pos, Nat.sub_eq_zero_of_le (by omega : length ≤ 32)]
    rfl

end Cidr

theorem checks_cidr {off : UInt32} {length : Nat} (x : Bool) (zero : ZeroBeyond length words) :
    Checks view (cidrInsns off length words) x x
      (∀ index lt, WordAgrees view off length words index lt) := by
  induction words generalizing off length with
  | nil => exact Checks.nil.congr (by simp)
  | cons word tl ih =>
    by_cases pos : length ≠ 0
    · obtain ⟨load, v, sets, agree, split⟩ := @cidrInsns_cons view off _ _ _ x pos zero (Nat.succ_pos _)
      rw [split]
      refine (sets.checks_jeq.append fun _ => ih zero.tail).congr ?_
      rw [agree]
      constructor
      · rintro ⟨fst, oths⟩ index lt
        cases index with
        | zero => exact fst
        | succ index =>
          have mem : index < tl.length := by simpa using lt
          exact (wordAgrees_succ lt mem).mpr (oths index mem)
      · intro all
        refine ⟨all 0 (Nat.succ_pos _), fun index mem => ?_⟩
        have lt : index + 1 < (word :: tl).length := by simpa using mem
        exact (wordAgrees_succ lt mem).mp (all (index + 1) lt)
    · have eq0 : length = 0 := by omega
      subst eq0
      exact Checks.nil.congr
        ⟨fun _ index lt => wordAgrees_short lt (by omega), fun _ => trivial⟩

theorem offers_cidr {off : UInt32} {length : Nat} (x : Bool) (zero : ZeroBeyond length words) :
    Offers view (cidrInsns off length words) x x
      (∃ index lt, 32 * index < length ∧ WordAgrees view off length words index lt) := by
  induction words generalizing off length with
  | nil => exact Offers.nil.congr (by simp)
  | cons word tl ih =>
    by_cases pos : length ≠ 0
    · obtain ⟨load, v, sets, agrees, split⟩ := @cidrInsns_cons view off _ _ _ x pos zero (Nat.succ_pos _)
      rw [split]
      refine (sets.offers_jeq.append (ih zero.tail) fun _ set => set).congr ?_
      rw [agrees]
      constructor
      · rintro (fst | ⟨index, lt, cov, oth⟩)
        · exact ⟨0, by simp, by omega, fst⟩
        · exact ⟨index + 1, by simpa using lt, by omega, (wordAgrees_succ _ lt).mpr oth⟩
      rintro ⟨index, lt, cov, agree⟩
      cases index with
      | zero => exact Or.inl agree
      | succ index =>
        have mem : index < tl.length := by simpa using lt
        exact Or.inr ⟨index, mem, by omega, (wordAgrees_succ lt mem).mp agree⟩
    · have eq0 : length = 0 := by omega
      subst eq0
      exact Offers.nil.congr (by simp)

/-! ### Ports -/

def View.port (view : View) (side : Side) : UInt32 := view.l4 .h (portOff side)

def portCompares (lo hi : UInt16) : List Compare :=
  if lo = hi then [⟨.jeq, lo.toUInt32, true⟩]
  else [⟨.jge, lo.toUInt32, true⟩, ⟨.jgt, hi.toUInt32, false⟩]

theorem portInsns_eq (lo hi : UInt16) : portInsns lo hi = (portCompares lo hi).map insn := by
  unfold portInsns portCompares
  split <;> rfl

section Ports

variable {view : View} {x : Bool} {side : Side} {lo hi : UInt16}

theorem checks_ports :
    Checks view (xLoad x ++ [insnLdInd .h (portOff side)] ++ portInsns lo hi) x true
      (lo.toUInt32 ≤ view.port side ∧ view.port side ≤ hi.toUInt32) := by
  rw [portInsns_eq]
  refine (sets_ldInd.checks (portCompares lo hi)).congr ?_
  unfold portCompares
  split
  · rename_i sgl
    subst sgl
    simp only [mem_singleton, forall_eq, Compare.Holds, jmpTest, beq_iff_eq]
    constructor
    · intro same
      rw [View.port, same]
      exact ⟨UInt32.le_refl _, UInt32.le_refl _⟩
    · rintro ⟨above, below⟩
      exact UInt32.le_antisymm below above
  · simp [Compare.Holds, jmpTest, View.port]

theorem offers_ports (ord : lo ≤ hi) :
    Offers view (xLoad x ++ [insnLdInd .h (portOff side)] ++ portInsns lo hi) x true
      (view.port side = lo.toUInt32 ∨ lo ≠ hi) := by
  rw [portInsns_eq]
  refine (sets_ldInd.offers (portCompares lo hi)).congr ?_
  unfold portCompares
  split
  · rename_i sgl
    simp [Compare.Holds, jmpTest, View.port, sgl]
  rename_i prop
  have wide : lo.toUInt32 ≤ hi.toUInt32 := by
    exact UInt16.le_iff_toNat_le.mp ord
  refine iff_of_true ?_ (Or.inr prop)
  simp only [mem_cons, not_mem_nil, or_false, exists_eq_or_imp, exists_eq_left,
    Compare.Holds, jmpTest, decide_eq_true_eq, decide_eq_false_iff_not]
  rcases UInt32.le_total lo.toUInt32 (view.l4 .h (portOff side)) with above | below
  · exact Or.inl above
  · exact Or.inr (UInt32.not_lt.mpr (UInt32.le_trans below wide))

end Ports

/-! ### TCP flags -/

def View.tcpFlags (view : View) : UInt32 := view.l4 .b tcpflOff

/-- The flags of the packet under the mask are the given ones. -/
def FlagsMatch (view : View) (tf mask : UInt8) : Prop :=
  view.tcpFlags &&& mask.toUInt32 = tf.toUInt32

/-- The flags are their own mask, and others are set too. The block then has no instruction
for the mask (`usingmask`), and compares the whole byte. -/
def OtherFlags (view : View) (tf mask : UInt8) : Prop :=
  mask = tf ∧ view.tcpFlags ≠ tf.toUInt32

/-- What the block checks of the flags. -/
def FlagsPass (view : View) (tf mask : UInt8) : Prop :=
  FlagsMatch view tf mask ∧ ¬ OtherFlags view tf mask

theorem flagsPass_self {view : View} {tf : UInt8} :
    FlagsPass view tf tf ↔ view.tcpFlags = tf.toUInt32 := by
  constructor
  · rintro ⟨-, whole⟩
    exact not_not.mp fun ne => whole ⟨rfl, ne⟩
  · intro eq
    refine ⟨?_, fun oth => oth.2 eq⟩
    rw [FlagsMatch, eq, UInt32.and_self]

theorem flagsPass_of_ne {view : View} {tf mask : UInt8} (ne : ¬ mask = tf) :
    FlagsPass view tf mask ↔ FlagsMatch view tf mask :=
  and_iff_left fun oth => ne oth.1

def tcpflInsns (tf mask : UInt8) : List BpfInsn :=
  insnLdInd .b tcpflOff :: (if mask ≠ tf then [insnAnd mask.toUInt32] else []) ++
    [insnJmp .jeq tf.toUInt32 0 jumpMagic]

theorem checks_tcpfl {x : Bool} (tf mask : UInt8) :
    Checks view (xLoad x ++ tcpflInsns tf mask) x true (FlagsPass view tf mask) := by
  unfold tcpflInsns
  by_cases same : mask = tf
  · subst same
    rw [flagsPass_self]
    simp only [ne_eq, not_true_eq_false, if_false]
    rw [← append_assoc]
    exact sets_ldInd.checks_jeq
  · rw [flagsPass_of_ne same]
    simp only [same, ne_eq]
    rw [← append_assoc]
    exact sets_ldInd_and.checks_jeq

theorem checks_tcpfl_ifTcp {x : Bool} (tf mask : UInt8) :
    Checks view (xLoad x ++ ([insnLdMem bpfMwL4proto,
        insnJmp .jeq ipprotoTcp 0 (if mask ≠ tf then 3 else 2)] ++ tcpflInsns tf mask)) x true
      (view.l4proto = ipprotoTcp → FlagsPass view tf mask) := by
  intro r held
  have prev : XEq view true ⟨view.l4proto, view.l4off⟩ := fun _ => rfl
  have got : exec view (xLoad x ++ ([insnLdMem bpfMwL4proto,
        insnJmp .jeq ipprotoTcp 0 (if mask ≠ tf then 3 else 2)] ++ tcpflInsns tf mask)) r =
      exec view (insnJmp .jeq ipprotoTcp 0 (if mask ≠ tf then 3 else 2) :: tcpflInsns tf mask)
        ⟨view.l4proto, view.l4off⟩ := by
    rw [exec_xLoad held, cons_append, exec_ldMem]
    rfl
  rw [got, exec_next effect_insnJmp]
  by_cases isTcp : view.l4proto = ipprotoTcp
  · have pss : jmpTest .jeq view.l4proto ipprotoTcp = true := by simp [jmpTest, isTcp]
    rw [if_pos pss, if_neg (by decide), if_pos (by exact Nat.zero_le _)]
    obtain ⟨matching, failing⟩ := checks_tcpfl tf mask ⟨view.l4proto, view.l4off⟩ prev
    exact ⟨fun condition => matching (condition isTcp), fun violated =>
      failing (fun agree => violated (fun _ => agree))⟩
  have fails : ¬ jmpTest .jeq view.l4proto ipprotoTcp = true := by simp [jmpTest, isTcp]
  have skip : (if mask ≠ tf then (3 : UInt8) else 2).toNat = (tcpflInsns tf mask).length := by
    unfold tcpflInsns
    by_cases same : mask = tf <;> simp [same]
  have short : (tcpflInsns tf mask).length ≠ jumpMagic.toNat := by
    rw [← skip]
    split <;> decide
  rw [if_neg fails, skip, if_neg short, if_pos (le_refl _), drop_length, exec_nil]
  exact ⟨fun _ => ⟨_, prev, rfl⟩, fun violated => absurd (fun same => absurd same isTcp) violated⟩

end NetBSD.Npfctl
