import NetBSD.Machine.Trace
import NetBSD.Net.Npf.Inet

/-!
Owns the TCP connection tracker of `sys/net/npf/npf_state_tcp.c` and its entry
point `npf_state_init` of `npf_state.c`: the transition table, the window test
`npf_tcp_inwindow` with its updates, and `npf_state_tcp`. A failed `KASSERT`
or a read outside the table is `none`.
-/

namespace NetBSD.Net.Npf

open Option

/-! ### Sequence arithmetic -/

/-- The conversion of a 32-bit pattern to `int`. -/
def toInt (v : UInt32) : Int := if v.toNat < 2 ^ 31 then v.toNat else v.toNat - 2 ^ 32

def seqLeq (a b : UInt32) : Bool := decide (toInt (a - b) ≤ 0)
def seqGt (a b : UInt32) : Bool := decide (0 < toInt (a - b))
def seqGeq (a b : UInt32) : Bool := decide (0 ≤ toInt (a - b))

/-! ### States and transitions -/

def tcpsOk : Nat := 255
def tcpsClosed : Nat := 0
def tcpsSynSent : Nat := 1
def tcpsSimsynSent : Nat := 2
def tcpsSynReceived : Nat := 3
def tcpsEstablished : Nat := 4
def tcpsFinSent : Nat := 5
def tcpsFinReceived : Nat := 6
def tcpsCloseWait : Nat := 7
def tcpsFinWait : Nat := 8
def tcpsClosing : Nat := 9
def tcpsLastAck : Nat := 10
def tcpsTimeWait : Nat := 11

def npfTcpNstates : Nat := 12

/-- `NPF_FLOW_FORW` and `NPF_FLOW_BACK`. -/
inductive Flow where
  | forw
  | back
deriving DecidableEq, Repr

def Flow.other : Flow → Flow
  | .forw => .back
  | .back => .forw

def Flow.index : Flow → Nat
  | .forw => 0
  | .back => 1

/-- `npf_tcpfl2case`: a nibble of the constant, chosen by the SYN, FIN and ACK
flags. -/
def npfTcpfl2case (tcpfl : UInt8) : Nat :=
  let i := (tcpfl &&& (thSyn ||| thFin)) ||| ((tcpfl &&& thAck) >>> 2)
  (0x2430140 >>> (i.toNat <<< 2)) &&& 7

/-- `npf_tcp_fsm`. Columns: invalid, SYN, SYN-ACK, ACK, FIN. -/
def npfTcpFsmTable : List (List (List Nat)) :=
  [ -- closed
    [[tcpsClosed, tcpsSynSent, tcpsClosed, tcpsClosed, tcpsClosed],
      [tcpsClosed, tcpsClosed, tcpsClosed, tcpsClosed, tcpsClosed]],
    -- SYN sent
    [[tcpsClosed, tcpsOk, tcpsClosed, tcpsClosed, tcpsClosed],
      [tcpsClosed, tcpsSimsynSent, tcpsSynReceived, tcpsClosed, tcpsClosed]],
    -- simultaneous SYN sent
    [[tcpsClosed, tcpsOk, tcpsSynReceived, tcpsClosed, tcpsClosed],
      [tcpsClosed, tcpsOk, tcpsSynReceived, tcpsClosed, tcpsFinReceived]],
    -- SYN received
    [[tcpsClosed, tcpsClosed, tcpsClosed, tcpsEstablished, tcpsFinSent],
      [tcpsClosed, tcpsClosed, tcpsOk, tcpsOk, tcpsFinReceived]],
    -- established
    [[tcpsClosed, tcpsClosed, tcpsClosed, tcpsOk, tcpsFinSent],
      [tcpsClosed, tcpsClosed, tcpsClosed, tcpsOk, tcpsFinReceived]],
    -- FIN sent
    [[tcpsClosed, tcpsClosed, tcpsClosed, tcpsOk, tcpsOk],
      [tcpsClosed, tcpsClosed, tcpsClosed, tcpsFinWait, tcpsClosing]],
    -- FIN received
    [[tcpsClosed, tcpsClosed, tcpsClosed, tcpsCloseWait, tcpsClosing],
      [tcpsClosed, tcpsClosed, tcpsClosed, tcpsOk, tcpsOk]],
    -- close wait
    [[tcpsClosed, tcpsClosed, tcpsClosed, tcpsOk, tcpsLastAck],
      [tcpsClosed, tcpsClosed, tcpsClosed, tcpsOk, tcpsLastAck]],
    -- FIN wait
    [[tcpsClosed, tcpsClosed, tcpsClosed, tcpsOk, tcpsLastAck],
      [tcpsClosed, tcpsClosed, tcpsClosed, tcpsOk, tcpsLastAck]],
    -- closing
    [[tcpsClosed, tcpsClosed, tcpsClosed, tcpsLastAck, tcpsClosed],
      [tcpsClosed, tcpsClosed, tcpsClosed, tcpsLastAck, tcpsClosed]],
    -- last ACK
    [[tcpsClosed, tcpsClosed, tcpsClosed, tcpsTimeWait, tcpsClosed],
      [tcpsClosed, tcpsClosed, tcpsClosed, tcpsTimeWait, tcpsClosed]],
    -- time wait
    [[tcpsClosed, tcpsSynSent, tcpsClosed, tcpsClosed, tcpsClosed],
      [tcpsClosed, tcpsClosed, tcpsClosed, tcpsClosed, tcpsClosed]]]

def npfTcpFsm (state : Nat) (di : Flow) (flagcase : Nat) : Option Nat :=
  (npfTcpFsmTable[state]?.bind fun rows => rows[di.index]?).bind fun row => row[flagcase]?

/-! ### Windows -/

structure NpfTcpstate where
  nst_end : UInt32
  nst_maxend : UInt32
  nst_maxwin : UInt32
  nst_wscale : Nat
deriving DecidableEq, Repr

structure NpfState where
  nst_state : Nat
  nst_tcpst : Flow → NpfTcpstate

/-- Write both sides, seen from direction `di`. -/
def NpfState.setSides (nst : NpfState) (di : Flow) (fstate tstate : NpfTcpstate) : NpfState :=
  { nst with nst_tcpst := fun side => if side = di then fstate else tstate }

def npfTcpMaxackwin : Int := 66000

def hasFlag (tcpfl flag : UInt8) : Bool := tcpfl &&& flag != 0

/-- The local variables of `npf_tcp_inwindow`. -/
structure Segment where
  seq : UInt32
  ack : UInt32
  «end» : UInt32
  win : UInt32

def scaleWin (win : UInt32) (wscale : Nat) : UInt32 :=
  if win ≠ 0 then win <<< UInt32.ofNat wscale else 1

/-- The values read from the packet, with the window scaled as `fstate`
announced it. -/
def segmentOf (npc : NpfCache) (fstate : NpfTcpstate) : Segment :=
  let tcpfl := npc.npc_tcp.th_flags
  let (tcpdlen, seq, ack, win) := npfTcpsaw npc
  let «end» := seq + tcpdlen
  let «end» := if hasFlag tcpfl thSyn then «end» + 1 else «end»
  let «end» := if hasFlag tcpfl thFin then «end» + 1 else «end»
  ⟨seq, ack, «end», scaleWin win fstate.nst_wscale⟩

/-- The first packet initialises both sides. -/
def initSides (npc : NpfCache) (seg : Segment) : NpfTcpstate × NpfTcpstate :=
  (⟨seg.end, seg.end, seg.win, (npfFetchTcpopts npc 0).2⟩, ⟨0, 0, 1, 0⟩)

/-- A side without a recorded end takes it from this packet. -/
def noteFirst (npc : NpfCache) (seg : Segment) (fstate : NpfTcpstate) : NpfTcpstate :=
  if fstate.nst_end = 0 then
    ⟨seg.end, seg.end + 1, seg.win,
      if hasFlag npc.npc_tcp.th_flags thSyn then (npfFetchTcpopts npc 0).2 else 0⟩
  else
    fstate

/-- A packet without ACK, or a RST with a zero ACK, acknowledges what the other
side has sent. -/
def fixAck (tcpfl : UInt8) (seg : Segment) (tstate : NpfTcpstate) : Segment :=
  if !hasFlag tcpfl thAck then { seg with ack := tstate.nst_end }
  else if hasFlag tcpfl thRst && seg.ack = 0 then { seg with ack := tstate.nst_end }
  else seg

/-- A RST to the initial SYN may have a zero SEQ. -/
def fixRst (tcpfl : UInt8) (state : Nat) (seg : Segment) (fstate : NpfTcpstate) : Segment :=
  if hasFlag tcpfl thRst && seg.seq = 0 && state = tcpsSynSent then
    { seg with «end» := fstate.nst_end, seq := fstate.nst_end }
  else
    seg

def ackskew (seg : Segment) (tstate : NpfTcpstate) : Int := toInt (tstate.nst_end - seg.ack)

/-- The RST rule and the boundaries I to IV. -/
def inBounds (tcpfl : UInt8) (seg : Segment) (fstate tstate : NpfTcpstate) : Bool :=
  !(hasFlag tcpfl thRst && decide (1 < fstate.nst_end - seg.seq)) &&
  seqLeq seg.end fstate.nst_maxend &&
  seqGeq seg.seq (fstate.nst_end - tstate.nst_maxwin) &&
  !(decide (ackskew seg tstate < -npfTcpMaxackwin) ||
    decide (npfTcpMaxackwin * 2 ^ fstate.nst_wscale < ackskew seg tstate))

/-- The side that sent an accepted packet. -/
def passFrom (seg : Segment) (fstate : NpfTcpstate) : NpfTcpstate :=
  { fstate with
    nst_maxwin := if fstate.nst_maxwin < seg.win then seg.win else fstate.nst_maxwin
    nst_end := if seqGt seg.end fstate.nst_end then seg.end else fstate.nst_end }

/-- The side that receives an accepted packet. -/
def passTo (seg : Segment) (tstate : NpfTcpstate) : NpfTcpstate :=
  { tstate with
    nst_end := if ackskew seg tstate < 0 then seg.ack else tstate.nst_end
    nst_maxend :=
      if seqGeq (seg.ack + seg.win) tstate.nst_maxend then seg.ack + seg.win
      else tstate.nst_maxend }

/-- The packet after the two repairs. -/
def repaired (npc : NpfCache) (nst : NpfState) (di : Flow) : Segment :=
  let seg := segmentOf npc (nst.nst_tcpst di)
  let fstate := noteFirst npc seg (nst.nst_tcpst di)
  let tcpfl := npc.npc_tcp.th_flags
  fixRst tcpfl nst.nst_state (fixAck tcpfl seg (nst.nst_tcpst di.other)) fstate

/-- `npf_tcp_inwindow`: whether the packet is in the window, and the state with
its sides updated. -/
def npfTcpInwindow (npc : NpfCache) (nst : NpfState) (di : Flow) : Bool × NpfState :=
  let fstate := nst.nst_tcpst di
  let tstate := nst.nst_tcpst di.other
  let seg := segmentOf npc fstate
  if fstate.nst_maxwin = 0 then
    (true, nst.setSides di (initSides npc seg).1 (initSides npc seg).2)
  else
    let fstate := noteFirst npc seg fstate
    let seg := repaired npc nst di
    if inBounds npc.npc_tcp.th_flags seg fstate tstate then
      (true, nst.setSides di (passFrom seg fstate) (passTo seg tstate))
    else
      (false, nst.setSides di fstate tstate)

def npfStateTcp (npc : NpfCache) (nst : NpfState) (di : Flow) : Option (Bool × NpfState) :=
  let tcpfl := npc.npc_tcp.th_flags
  let state := nst.nst_state
  if npfTcpNstates ≤ state then none
  else
    let nstate : Option Nat :=
      if !hasFlag tcpfl thRst then npfTcpFsm state di (npfTcpfl2case tcpfl)
      else if state = tcpsTimeWait then some tcpsOk
      else some tcpsClosed
    nstate.map fun nstate =>
      let (inWindow, nst) := npfTcpInwindow npc nst di
      if !inWindow then (false, nst)
      else if nstate = tcpsOk then (true, nst)
      else (true, { nst with nst_state := nstate })

def zeroState : NpfState := ⟨0, fun _ => ⟨0, 0, 0, 0⟩⟩

def npfStateInit (npc : NpfCache) : Option (Bool × NpfState) := npfStateTcp npc zeroState .forw

/-- One later packet of the connection, in either direction. -/
def trackStep (nst : NpfState) (packet : NpfCache × Flow) : Option NpfState :=
  (npfStateTcp packet.1 nst packet.2).map Prod.snd

def track (first : NpfCache) (packets : List (NpfCache × Flow)) : Option NpfState :=
  (npfStateInit first).bind fun started => Machine.consume trackStep packets started.2

/-!
### Runs of a connection

The coherence of the tracked TCP windows over whole connections. The
state, the window scales and the maximum windows are always in range; the
upper boundary of a side falls behind its highest sequence number exactly in
the step where an old acknowledgement makes the comparison of boundaries wrap.
-/

open NetBSD.Machine

/-! ### Coherent states -/

/-- How far the upper boundary is ahead of the highest sequence number. -/
def NpfTcpstate.gap (side : NpfTcpstate) : Nat := (side.nst_maxend - side.nst_end).toNat

structure SideInRange (side : NpfTcpstate) : Prop where
  wscale : side.nst_wscale ≤ tcpMaxWinshift
  maxwin : 1 ≤ side.nst_maxwin.toNat

/-- The bounds that no packet can break. -/
structure InRange (nst : NpfState) : Prop where
  state : nst.nst_state < npfTcpNstates
  side : ∀ di, SideInRange (nst.nst_tcpst di)

/-- On both sides the highest sequence number has not passed the upper
boundary. -/
def Ahead (nst : NpfState) : Prop := ∀ di, (nst.nst_tcpst di).gap < 2 ^ 31

theorem Flow.other_ne (di : Flow) : di.other ≠ di := by
  cases di <;> decide

section Sides

variable {nst : NpfState} {di : Flow} {fstate tstate : NpfTcpstate}

variable (nst) in
theorem NpfState.forall_setSides (property : NpfTcpstate → Prop) :
    (∀ side, property ((nst.setSides di fstate tstate).nst_tcpst side)) ↔
      property fstate ∧ property tstate := by
  constructor
  · intro sides
    have fromSide := sides di
    have toSide := sides di.other
    simp only [NpfState.setSides, if_neg di.other_ne] at fromSide toSide
    exact ⟨fromSide, toSide⟩
  · intro sides side
    simp only [NpfState.setSides]
    split
    · exact sides.1
    · exact sides.2

theorem NpfState.ahead_setSides :
    Ahead (nst.setSides di fstate tstate) ↔ fstate.gap < 2 ^ 31 ∧ tstate.gap < 2 ^ 31 :=
  NpfState.forall_setSides nst (fun side => side.gap < 2 ^ 31)

theorem InRange.setSides (rng : InRange nst) (fromSide : SideInRange fstate)
    (toSide : SideInRange tstate) : InRange (nst.setSides di fstate tstate) :=
  ⟨rng.state, (NpfState.forall_setSides nst SideInRange).mpr ⟨fromSide, toSide⟩⟩

end Sides

/-! ### The transition table -/

theorem npfTcpfl2case_lt (tcpfl : UInt8) : npfTcpfl2case tcpfl < 5 := by
  have all : ∀ n : Fin 256, npfTcpfl2case (UInt8.ofNat n.val) < 5 := by decide +kernel
  have here := all ⟨tcpfl.toNat, tcpfl.toNat_lt⟩
  rwa [UInt8.ofNat_toNat] at here

theorem npfTcpFsm_range {st : Nat} (rng : st < npfTcpNstates) (di : Flow)
    {flagcase : Nat} (isCase : flagcase < 5) : ∃ nstate, npfTcpFsm st di flagcase = some nstate ∧
      (nstate = tcpsOk ∨ nstate < npfTcpNstates) := by
  have forw : ∀ (s : Fin 12) (c : Fin 5), ∃ n : Fin 256, npfTcpFsm s.val .forw c.val = some n.val ∧
      (n.val = tcpsOk ∨ n.val < npfTcpNstates) := by decide +kernel
  have back : ∀ (s : Fin 12) (c : Fin 5), ∃ n : Fin 256, npfTcpFsm s.val .back c.val = some n.val ∧
      (n.val = tcpsOk ∨ n.val < npfTcpNstates) := by decide +kernel
  cases di with
  | forw =>
    obtain ⟨n, e⟩ := forw ⟨st, rng⟩ ⟨flagcase, isCase⟩
    exact ⟨n.val, e⟩
  | back =>
    obtain ⟨n, e⟩ := back ⟨st, rng⟩ ⟨flagcase, isCase⟩
    exact ⟨n.val, e⟩

/-! ### Windows of one packet -/

theorem scaleWin_range (win : UInt16) {wscale : Nat} (sml : wscale ≤ tcpMaxWinshift) :
    1 ≤ (scaleWin win.toUInt32 wscale).toNat ∧ (scaleWin win.toUInt32 wscale).toNat < 2 ^ 30 := by
  have winLt := win.toNat_lt
  unfold scaleWin
  by_cases noWindow : win.toUInt32 = 0
  · rw [if_neg (not_not.mpr noWindow)]
    decide
  rw [if_pos noWindow]
  have pos : 1 ≤ win.toNat := by
    by_contra zero
    apply noWindow
    apply UInt32.toNat_inj.mp
    rw [UInt16.toNat_toUInt32]
    simp only [UInt32.toNat_zero]
    omega
  rw [tcpMaxWinshift] at sml
  have shift : (UInt32.ofNat wscale).toNat % 32 = wscale := by
    rw [UInt32.toNat_ofNat']
    omega
  have scale : 1 ≤ 2 ^ wscale := Nat.one_le_two_pow
  have scaleLe : 2 ^ wscale ≤ 2 ^ 14 := Nat.pow_le_pow_right (by decide) sml
  have product : win.toNat * 2 ^ wscale ≤ 65535 * 2 ^ 14 := Nat.mul_le_mul (by omega) scaleLe
  have atLeast : 1 * 1 ≤ win.toNat * 2 ^ wscale := Nat.mul_le_mul pos scale
  rw [UInt32.toNat_shiftLeft, shift, UInt16.toNat_toUInt32, Nat.shiftLeft_eq,
    Nat.mod_eq_of_lt (by omega)]
  omega

variable {fstate : NpfTcpstate}

theorem segmentOf_win (npc : NpfCache) (wscale : fstate.nst_wscale ≤ tcpMaxWinshift) :
    1 ≤ (segmentOf npc fstate).win.toNat ∧ (segmentOf npc fstate).win.toNat < 2 ^ 30 :=
  scaleWin_range npc.npc_tcp.th_win wscale

theorem fixAck_win (tcpfl : UInt8) (seg : Segment) (tstate : NpfTcpstate) :
    (fixAck tcpfl seg tstate).win = seg.win := by
  simp only [fixAck]
  split
  · rfl
  · split <;> rfl

theorem fixRst_win (tcpfl : UInt8) (st : Nat) (seg : Segment) (fstate : NpfTcpstate) :
    (fixRst tcpfl st seg fstate).win = seg.win := by
  simp only [fixRst]
  split <;> rfl

theorem repaired_win (npc : NpfCache) (nst : NpfState) (di : Flow) :
    (repaired npc nst di).win = (segmentOf npc (nst.nst_tcpst di)).win := by
  simp only [repaired, fixRst_win, fixAck_win]

variable {seg : Segment}

theorem initSides_inRange (npc : NpfCache) (win : 1 ≤ seg.win.toNat) :
    SideInRange (initSides npc seg).1 ∧ SideInRange (initSides npc seg).2 :=
  ⟨⟨npfFetchTcpopts_wscale_le npc (Nat.zero_le _), win⟩, ⟨Nat.zero_le _, Nat.le_refl 1⟩⟩

theorem initSides_gap (npc : NpfCache) (seg : Segment) :
    (initSides npc seg).1.gap = 0 ∧ (initSides npc seg).2.gap = 0 := by
  simp [NpfTcpstate.gap, initSides]

theorem noteFirst_inRange (npc : NpfCache) (win : 1 ≤ seg.win.toNat) (rng : SideInRange fstate) :
    SideInRange (noteFirst npc seg fstate) := by
  simp only [noteFirst]
  split
  · refine ⟨?_, win⟩
    split
    · exact npfFetchTcpopts_wscale_le npc (Nat.zero_le _)
    · exact Nat.zero_le _
  · exact rng

theorem noteFirst_gap (npc : NpfCache) (seg : Segment) (gap : fstate.gap < 2 ^ 31) :
    (noteFirst npc seg fstate).gap < 2 ^ 31 := by
  simp only [noteFirst]
  split
  · have next : (seg.end + 1).toNat = (seg.end.toNat + 1) % 2 ^ 32 := UInt32.toNat_add _ 1
    have endLt := seg.end.toNat_lt
    simp only [NpfTcpstate.gap]
    rw [UInt32.toNat_sub]
    omega
  · exact gap

/-! ### Accepted packets -/

theorem passFrom_inRange (rng : SideInRange fstate) : SideInRange (passFrom seg fstate) := by
  refine ⟨rng.wscale, ?_⟩
  have maxwin := rng.maxwin
  simp only [passFrom]
  split
  · rename_i larger
    rw [UInt32.lt_iff_toNat_lt] at larger
    omega
  · exact maxwin

private theorem toNat_sub (a b : UInt32) :
    (a - b).toNat = (2 ^ 32 - b.toNat + a.toNat) % 2 ^ 32 := UInt32.toNat_sub a b

theorem passFrom_gap (gap : fstate.gap < 2 ^ 31) (below : seqLeq seg.end fstate.nst_maxend = true) :
    (passFrom seg fstate).gap < 2 ^ 31 := by
  simp only [NpfTcpstate.gap, passFrom] at gap ⊢
  split
  · rename_i newer
    simp only [seqLeq, seqGt, toInt, decide_eq_true_eq, toNat_sub] at below newer
    rw [toNat_sub] at gap ⊢
    have endLt := seg.end.toNat_lt
    have maxLt := fstate.nst_maxend.toNat_lt
    split at below <;> split at newer <;> omega
  · exact gap

/-- The acknowledgement is so far below the receiver's end that the distance to
the receiver's upper boundary does not fit an `int`. -/
def BoundaryWraps (seg : Segment) (tstate : NpfTcpstate) : Prop :=
  0 ≤ ackskew seg tstate ∧ 2 ^ 31 + (seg.win.toNat : Int) < ackskew seg tstate + tstate.gap

theorem passTo_gap_iff {tstate : NpfTcpstate} (gap : tstate.gap < 2 ^ 31)
    (win : 1 ≤ seg.win.toNat ∧ seg.win.toNat < 2 ^ 30)
    (skew : -66000 ≤ ackskew seg tstate ∧ ackskew seg tstate ≤ 66000 * 2 ^ 14) :
    (passTo seg tstate).gap < 2 ^ 31 ↔ ¬ BoundaryWraps seg tstate := by
  have endLt := tstate.nst_end.toNat_lt
  have maxLt := tstate.nst_maxend.toNat_lt
  have ackLt := seg.ack.toNat_lt
  have sum : (seg.ack + seg.win).toNat = (seg.ack.toNat + seg.win.toNat) % 2 ^ 32 :=
    UInt32.toNat_add _ _
  simp only [BoundaryWraps, NpfTcpstate.gap, passTo, ackskew, seqGeq, toInt, decide_eq_true_eq,
    toNat_sub] at gap skew ⊢
  split_ifs at skew ⊢ <;> omega

theorem inBounds_spec {tcpfl : UInt8} {tstate : NpfTcpstate}
    (wscale : fstate.nst_wscale ≤ tcpMaxWinshift)
    (pss : inBounds tcpfl seg fstate tstate = true) : seqLeq seg.end fstate.nst_maxend = true ∧
      -66000 ≤ ackskew seg tstate ∧ ackskew seg tstate ≤ 66000 * 2 ^ 14 := by
  simp only [inBounds, Bool.and_eq_true, Bool.not_eq_true', Bool.or_eq_false_iff,
    decide_eq_false_iff_not] at pss
  obtain ⟨⟨⟨-, below⟩, -⟩, notLow, notHigh⟩ := pss
  have scale : (2 : Int) ^ fstate.nst_wscale ≤ 2 ^ 14 := by
    exact_mod_cast Nat.pow_le_pow_right (by decide : 0 < 2) wscale
  rw [npfTcpMaxackwin] at notLow notHigh
  exact ⟨below, by omega, by omega⟩

/-! ### One step -/

/-- The sending side as the boundary tests see it. -/
def sender (nst : NpfState) (packet : NpfCache × Flow) : NpfTcpstate :=
  noteFirst packet.1 (segmentOf packet.1 (nst.nst_tcpst packet.2)) (nst.nst_tcpst packet.2)

/-- The packet passes the boundary tests and its acknowledgement makes the
comparison of upper boundaries wrap. -/
def StepWraps (nst : NpfState) (packet : NpfCache × Flow) : Prop :=
  inBounds packet.1.npc_tcp.th_flags (repaired packet.1 nst packet.2) (sender nst packet)
      (nst.nst_tcpst packet.2.other) = true ∧
    BoundaryWraps (repaired packet.1 nst packet.2) (nst.nst_tcpst packet.2.other)

variable {nst : NpfState}

theorem npfTcpInwindow_inRange (rng : InRange nst) (npc : NpfCache) (di : Flow) :
    InRange (npfTcpInwindow npc nst di).2 := by
  have fromSide := rng.side di
  have toSide := rng.side di.other
  have win := segmentOf_win npc fromSide.wscale
  have noted := noteFirst_inRange npc win.1 fromSide
  simp only [npfTcpInwindow]
  split
  · have sides := initSides_inRange npc win.1
    exact rng.setSides sides.1 sides.2
  · split
    · exact rng.setSides (passFrom_inRange noted) ⟨toSide.wscale, toSide.maxwin⟩
    · exact rng.setSides noted toSide

theorem npfTcpInwindow_ahead_iff (rng : InRange nst) (ahead : Ahead nst) (npc : NpfCache)
    (di : Flow) : Ahead (npfTcpInwindow npc nst di).2 ↔ ¬ StepWraps nst (npc, di) := by
  have fromSide := rng.side di
  have win := segmentOf_win npc fromSide.wscale
  have noted := noteFirst_inRange npc win.1 fromSide
  have notedGap := noteFirst_gap npc (segmentOf npc (nst.nst_tcpst di)) (ahead di)
  have initialised : (nst.nst_tcpst di).nst_maxwin ≠ 0 := by
    intro zero
    have pos := fromSide.maxwin
    rw [zero] at pos
    exact absurd pos (by decide)
  simp only [npfTcpInwindow, StepWraps, sender]
  rw [if_neg initialised]
  by_cases pss : inBounds npc.npc_tcp.th_flags (repaired npc nst di)
      (noteFirst npc (segmentOf npc (nst.nst_tcpst di)) (nst.nst_tcpst di))
      (nst.nst_tcpst di.other) = true
  · rw [if_pos pss]
    obtain ⟨below, skew⟩ := inBounds_spec noted.wscale pss
    have win' := win
    rw [← repaired_win] at win'
    simp only [NpfState.ahead_setSides, pss, true_and]
    rw [passTo_gap_iff (ahead di.other) win' skew]
    exact ⟨fun both => both.2, fun fine => ⟨passFrom_gap notedGap below, fine⟩⟩
  · rw [if_neg pss]
    rw [NpfState.ahead_setSides]
    exact ⟨fun _ wraps => pss wraps.1, fun _ => ⟨notedGap, ahead di.other⟩⟩

/-- The step is defined and changes nothing beyond the windows but the state,
which stays in range. -/
theorem trackStep_eq (st : nst.nst_state < npfTcpNstates) (packet : NpfCache × Flow) :
    ∃ nstate < npfTcpNstates, trackStep nst packet =
      some { (npfTcpInwindow packet.1 nst packet.2).2 with nst_state := nstate } := by
  obtain ⟨npc, di⟩ := packet
  have unch : (npfTcpInwindow npc nst di).2.nst_state = nst.nst_state := by
    simp only [npfTcpInwindow]
    split
    · rfl
    · split <;> rfl
  have tgt : ∃ nstate, (if (!hasFlag npc.npc_tcp.th_flags thRst) = true then
        npfTcpFsm nst.nst_state di (npfTcpfl2case npc.npc_tcp.th_flags)
      else if nst.nst_state = tcpsTimeWait then some tcpsOk else some tcpsClosed) = some nstate ∧
      (nstate = tcpsOk ∨ nstate < npfTcpNstates) := by
    split
    · exact npfTcpFsm_range st di (npfTcpfl2case_lt _)
    · split
      · exact ⟨tcpsOk, rfl, Or.inl rfl⟩
      · exact ⟨tcpsClosed, rfl, Or.inr (by decide)⟩
  obtain ⟨nstate, isTarget, bound⟩ := tgt
  simp only [trackStep, npfStateTcp]
  rw [if_neg (by omega), isTarget]
  have kept : { (npfTcpInwindow npc nst di).2 with nst_state := nst.nst_state } =
      (npfTcpInwindow npc nst di).2 := by
    rw [← unch]
  by_cases inWindow : (npfTcpInwindow npc nst di).1 = true
  · by_cases ok : nstate = tcpsOk
    · refine ⟨nst.nst_state, st, ?_⟩
      simp [inWindow, ok, kept]
    · refine ⟨nstate, bound.resolve_left ok, ?_⟩
      simp [inWindow, ok]
  · refine ⟨nst.nst_state, st, ?_⟩
    simp [inWindow, kept]

theorem trackStep_inRange (rng : InRange nst) (packet : NpfCache × Flow) :
    ∃ s', trackStep nst packet = some s' ∧ InRange s' := by
  obtain ⟨nstate, bound, aft⟩ := trackStep_eq rng.state packet
  have windows := npfTcpInwindow_inRange rng packet.1 packet.2
  exact ⟨_, aft, bound, windows.side⟩

theorem trackStep_ahead_iff (rng : InRange nst) (ahead : Ahead nst) (packet : NpfCache × Flow) :
    (∃ s', trackStep nst packet = some s' ∧ InRange s' ∧ Ahead s') ↔
      ¬ StepWraps nst packet := by
  obtain ⟨nstate, bound, aft⟩ := trackStep_eq rng.state packet
  have windows := npfTcpInwindow_inRange rng packet.1 packet.2
  rw [← npfTcpInwindow_ahead_iff rng ahead]
  constructor
  · rintro ⟨s', same, -, still⟩
    rw [aft] at same
    obtain rfl := some.inj same
    exact still
  · intro still
    exact ⟨_, aft, ⟨bound, windows.side⟩, still⟩

/-! ### Whole connections -/

theorem npfStateInit_coherent (fst : NpfCache) :
    ∃ res nst, npfStateInit fst = some (res, nst) ∧ InRange nst ∧ Ahead nst := by
  have zero : zeroState.nst_state < npfTcpNstates := by decide
  obtain ⟨nstate, bound, aft⟩ := trackStep_eq zero (fst, .forw)
  have unscaled : (zeroState.nst_tcpst .forw).nst_wscale ≤ tcpMaxWinshift := Nat.zero_le _
  have win := segmentOf_win fst unscaled
  rw [trackStep, map_eq_some_iff] at aft
  obtain ⟨⟨res, nst⟩, started, isNst⟩ := aft
  simp only at isNst
  refine ⟨res, nst, started, ?_⟩
  rw [isNst]
  have rng := initSides_inRange fst win.1
  have gaps := initSides_gap fst (segmentOf fst (zeroState.nst_tcpst .forw))
  refine ⟨⟨bound, (NpfState.forall_setSides zeroState SideInRange).mpr rng⟩, ?_⟩
  apply (NpfState.forall_setSides zeroState (fun side => side.gap < 2 ^ 31)).mpr
  omega

theorem track_eq_consume {fst : NpfCache} {res : Bool}
    (started : npfStateInit fst = some (res, nst)) (packets : List (NpfCache × Flow)) :
    track fst packets = consume trackStep packets nst := by
  rw [track, started, bind_some]

/-- After every packet of every connection the state, the scales and the
maximum windows are in range, and the boundaries are ahead in every state
exactly when no step wraps. -/
theorem track_coherent_iff (first : NpfCache) (packets : List (NpfCache × Flow)) :
    (∀ front, front <+: packets → ∃ nst, track first front = some nst ∧ InRange nst) ∧
    ((∀ front, front <+: packets → ∀ nst, track first front = some nst → Ahead nst) ↔
      ∀ front packet, front ++ [packet] <+: packets →
        ∀ nst, track first front = some nst → ¬ StepWraps nst packet) := by
  obtain ⟨res, beg, started, rng, ahead⟩ := npfStateInit_coherent first
  have path : ∀ front, front <+: packets →
      ∃ nst, track first front = some nst ∧ InRange nst := by
    have always := (consume_invariant_iff trackStep InRange (fun _ _ => True)
      (fun nst packet holds => ⟨fun _ => trivial, fun _ => trackStep_inRange holds packet⟩)
      packets rng).mpr (fun _ _ _ _ _ => trivial)
    simpa only [track_eq_consume started] using always
  refine ⟨path, ?_⟩
  have exact_iff := consume_invariant_iff trackStep (fun nst => InRange nst ∧ Ahead nst)
    (fun nst packet => ¬ StepWraps nst packet)
    (fun nst packet holds => trackStep_ahead_iff holds.1 holds.2 packet) packets ⟨rng, ahead⟩
  simp only [← track_eq_consume started] at exact_iff
  rw [← exact_iff]
  constructor
  · intro staysAhead front pre
    obtain ⟨nst, got, range⟩ := path front pre
    exact ⟨nst, got, range, staysAhead front pre nst got⟩
  · intro coherent front pre nst got
    obtain ⟨nst', reached', -, ahead'⟩ := coherent front pre
    rw [got] at reached'
    obtain rfl := some.inj reached'
    exact ahead'

/-- A segment with a six-word header whose options announce the scale 14, or
with a plain header. -/
def trackedSegment (seq ack : UInt32) (flags : UInt8) (win : UInt16) (scale : Bool) : NpfCache :=
  ⟨.ip6 (if scale then 24 else 20), 40, ⟨seq, ack, if scale then 6 else 5, flags, win⟩,
    ⟨List.replicate 60 0 ++ [3, 3, 14, 0], fun _ _ => true⟩⟩

/-- A handshake with full scaling, a full window and an old acknowledgement
with a closed window. -/
def oldAcknowledgement : List (NpfCache × Flow) :=
  [(trackedSegment 5000 1001 0x12 65535 true, .back),
    (trackedSegment 1001 5001 0x10 65535 false, .forw),
    (trackedSegment 1001 (5001 - 1081344000) 0x10 0 false, .forw)]

/-- An old acknowledgement leaves a gap of `2^31` or more. -/
theorem track_oldAcknowledgement :
    ¬ ∀ (first : NpfCache) (packets : List (NpfCache × Flow)) (nst : NpfState),
      track first packets = some nst → nst.nst_state < npfTcpNstates ∧
        ∀ di, (nst.nst_tcpst di).nst_wscale ≤ tcpMaxWinshift ∧
          1 ≤ (nst.nst_tcpst di).nst_maxwin.toNat ∧ (nst.nst_tcpst di).gap < 2 ^ 31 := by
  intro claim
  have got : (track (trackedSegment 1000 0 0x02 65535 true) oldAcknowledgement).map
      (fun nst => decide ((nst.nst_tcpst .back).gap < 2 ^ 31)) = some false := by decide +kernel
  rw [map_eq_some_iff] at got
  obtain ⟨nst, reach, tail⟩ := got
  have coherent := ((claim _ _ nst reach).2 .back).2.2
  exact of_decide_eq_false tail coherent

/-!
### Rejected packets

What a rejected packet leaves behind in the TCP tracker. The only write
before the tests is the recording of a side that has no end yet, so a rejection
changes the state exactly when it comes after such a recording.
-/

section Reject

variable {npc : NpfCache} {nst : NpfState} {di : Flow}

theorem NpfState.setSides_same (nst : NpfState) (di : Flow) :
    nst.setSides di (nst.nst_tcpst di) (nst.nst_tcpst di.other) = nst := by
  have same : (fun side => if side = di then nst.nst_tcpst di else nst.nst_tcpst di.other) =
      nst.nst_tcpst := by
    funext side
    cases side <;> cases di <;> rfl
  unfold NpfState.setSides
  rw [same]

/-- The window test rejects with the receiver as it was and the sender as it was recorded. -/
theorem npfTcpInwindow_rejects (rejected : (npfTcpInwindow npc nst di).1 = false) :
    (nst.nst_tcpst di).nst_maxwin ≠ 0 ∧ inBounds npc.npc_tcp.th_flags (repaired npc nst di)
        (noteFirst npc (segmentOf npc (nst.nst_tcpst di)) (nst.nst_tcpst di))
        (nst.nst_tcpst di.other) = false ∧
      (npfTcpInwindow npc nst di).2 = nst.setSides di
        (noteFirst npc (segmentOf npc (nst.nst_tcpst di)) (nst.nst_tcpst di))
        (nst.nst_tcpst di.other) := by
  unfold npfTcpInwindow at rejected ⊢
  dsimp only at rejected ⊢
  by_cases fst : (nst.nst_tcpst di).nst_maxwin = 0
  · rw [if_pos fst] at rejected
    cases rejected
  rw [if_neg fst] at rejected ⊢
  cases passes : inBounds npc.npc_tcp.th_flags (repaired npc nst di)
      (noteFirst npc (segmentOf npc (nst.nst_tcpst di)) (nst.nst_tcpst di))
      (nst.nst_tcpst di.other) with
  | true =>
    rw [passes] at rejected
    cases rejected
  | false =>
    exact ⟨fst, rfl, rfl⟩

theorem npfStateTcp_rejects_iff {nst' : NpfState} (st : nst.nst_state < npfTcpNstates) :
    npfStateTcp npc nst di = some (false, nst') ↔
      (npfTcpInwindow npc nst di).1 = false ∧ nst' = (npfTcpInwindow npc nst di).2 := by
  obtain ⟨nstate, tgt⟩ : ∃ nstate, (if (!hasFlag npc.npc_tcp.th_flags thRst) = true then
        npfTcpFsm nst.nst_state di (npfTcpfl2case npc.npc_tcp.th_flags)
      else if nst.nst_state = tcpsTimeWait then some tcpsOk else some tcpsClosed) =
        some nstate := by
    by_cases noReset : (!hasFlag npc.npc_tcp.th_flags thRst) = true
    · rw [if_pos noReset]
      obtain ⟨nstate, next', _⟩ := npfTcpFsm_range st di (npfTcpfl2case_lt _)
      exact ⟨nstate, next'⟩
    · rw [if_neg noReset]
      by_cases waits : nst.nst_state = tcpsTimeWait
      · exact ⟨tcpsOk, if_pos waits⟩
      · exact ⟨tcpsClosed, if_neg waits⟩
  unfold npfStateTcp
  dsimp only
  rw [if_neg (not_le.mpr st), tgt, map_some]
  cases inWindow : (npfTcpInwindow npc nst di).1 with
  | false =>
    rw [some.injEq, Prod.mk.injEq]
    exact ⟨fun same => ⟨rfl, same.2.symm⟩, fun same => ⟨rfl, same.2.symm⟩⟩
  | true =>
    rw [Bool.not_true, if_neg Bool.false_ne_true]
    by_cases ok : nstate = tcpsOk
    · rw [if_pos ok]
      exact ⟨nofun, nofun⟩
    · rw [if_neg ok]
      exact ⟨nofun, nofun⟩

/-- A RST with two bytes of data, which the RST rule rejects even as the first packet of its side.
-/
def longReset : NpfCache := ⟨.ip6 22, 40, ⟨1, 0, 5, thRst, 0⟩, ⟨[], fun _ _ => true⟩⟩

theorem longReset_rejected (notFirst : (nst.nst_tcpst di).nst_maxwin ≠ 0)
    (noEnd : (nst.nst_tcpst di).nst_end = 0) : npfTcpInwindow longReset nst di =
      (false, nst.setSides di ⟨3, 4, 1, 0⟩ (nst.nst_tcpst di.other)) := by
  have seg : segmentOf longReset (nst.nst_tcpst di) = ⟨1, 0, 3, 1⟩ := rfl
  have noted : noteFirst longReset ⟨1, 0, 3, 1⟩ (nst.nst_tcpst di) = ⟨3, 4, 1, 0⟩ := if_pos noEnd
  have isRepaired : repaired longReset nst di = ⟨1, (nst.nst_tcpst di.other).nst_end, 3, 1⟩ := by
    unfold repaired
    dsimp only
    rw [seg, noted]
    rfl
  have fails (tstate : NpfTcpstate) (ack : UInt32) :
      inBounds thRst ⟨1, ack, 3, 1⟩ ⟨3, 4, 1, 0⟩ tstate = false := by
    have reset : (!(hasFlag thRst thRst && decide (1 < (3 : UInt32) - 1))) = false := by decide
    rw [inBounds, reset]
    rfl
  unfold npfTcpInwindow
  dsimp only
  rw [if_neg notFirst, seg, noted, isRepaired]
  rw [show longReset.npc_tcp.th_flags = thRst from rfl, fails, if_neg Bool.false_ne_true]

/-- A rejected packet leaves the whole state as it was, whatever it is, exactly when its side is not
yet initialised or has a recorded end. -/
theorem npfStateTcp_leaves_iff (nst : NpfState) (di : Flow) :
    (∀ npc nst', npfStateTcp npc nst di = some (false, nst') → nst' = nst) ↔
      (nst.nst_state < npfTcpNstates →
        (nst.nst_tcpst di).nst_maxwin = 0 ∨ (nst.nst_tcpst di).nst_end ≠ 0) := by
  constructor
  · intro leaves st
    by_contra bad
    obtain ⟨notFirst, hasNone⟩ := not_or.mp bad
    have isEnd := longReset_rejected notFirst (not_not.mp hasNone)
    have same := leaves longReset _ ((npfStateTcp_rejects_iff st).mpr ⟨by rw [isEnd], rfl⟩)
    rw [isEnd] at same
    have side := (if_pos rfl).symm.trans (congrFun (congrArg NpfState.nst_tcpst same) di)
    rw [← side] at hasNone
    exact hasNone (by decide)
  · intro fine npc nst' rejects
    by_cases st : nst.nst_state < npfTcpNstates
    · obtain ⟨rejected, rfl⟩ := (npfStateTcp_rejects_iff st).mp rejects
      obtain ⟨notFirst, -, isEnd⟩ := npfTcpInwindow_rejects rejected
      have hasEnd := (fine st).resolve_left notFirst
      rw [isEnd, noteFirst, if_neg hasEnd, nst.setSides_same]
    · unfold npfStateTcp at rejects
      rw [if_pos (Nat.le_of_not_lt st)] at rejects
      cases rejects

/-- After a SYN, a SYN-ACK that acknowledges what was never sent is rejected but recorded, and the
real one, which the tracker would have passed, is then rejected too. -/
theorem rejected_recorded :
    ¬ (∀ (first npc : NpfCache) (packets : List (NpfCache × Flow)) (nst nst' : NpfState) (di : Flow),
      track first packets = some nst → npfStateTcp npc nst di = some (false, nst') → nst' = nst) ∧
    let syn := trackedSegment 1000 0 0x02 65535 false
    let forged := trackedSegment 80000 900000 0x12 65535 false
    let ans := trackedSegment 5000 1001 0x12 65535 false
    (((track syn []).bind fun nst => npfStateTcp ans nst .back).map Prod.fst = some true) ∧
      ((track syn [(forged, .back)]).bind fun nst => npfStateTcp ans nst .back).map Prod.fst =
        some false := by
  refine ⟨fun claim => ?_, by decide +kernel, by decide +kernel⟩
  have rejects : ((track (trackedSegment 1000 0 0x02 65535 false) []).bind fun nst =>
      (npfStateTcp (trackedSegment 80000 900000 0x12 65535 false) nst .back).map fun res =>
        (res.1, (nst.nst_tcpst .back).nst_end, (res.2.nst_tcpst .back).nst_end)) =
      some (false, 0, 80001) := by decide +kernel
  obtain ⟨nst, got, rejects⟩ := bind_eq_some_iff.mp rejects
  obtain ⟨⟨flag, nst'⟩, isRes, values⟩ := map_eq_some_iff.mp rejects
  obtain ⟨rfl, prev, s'⟩ : flag = false ∧ (nst.nst_tcpst .back).nst_end = 0 ∧
      (nst'.nst_tcpst .back).nst_end = 80001 := by
    simpa only [Prod.mk.injEq] using values
  rw [claim _ _ [] nst nst' .back got isRes, prev] at s'
  exact absurd s' (by decide)

end Reject

/-! ### What a connection has seen -/

def tcpfcSyn : Nat := 1
def tcpfcSynack : Nat := 2
def tcpfcAck : Nat := 3
def tcpfcFin : Nat := 4

/-- A packet of a tracked connection, with a record of the packets without RST that were passed, as
`npf_tcp_fsm` sees them. -/
def recordStep (tracked : NpfState × List (Nat × Flow)) (packet : NpfCache × Flow) :
    Option (NpfState × List (Nat × Flow)) :=
  let tcpfl := packet.1.npc_tcp.th_flags
  (npfStateTcp packet.1 tracked.1 packet.2).map fun (passed, nst) =>
    (nst, tracked.2 ++
      if passed && !hasFlag tcpfl thRst then [(npfTcpfl2case tcpfl, packet.2)] else [])

/-- What must have been passed for a state: one of these lists, in its order. -/
def history (state : Nat) : List (List (Nat × Flow)) :=
  let syn := (tcpfcSyn, Flow.forw)
  let answered := [[syn, (tcpfcSynack, .back)], [syn, (tcpfcSyn, .back), (tcpfcSynack, .forw)]]
  if state = tcpsClosed then [[]]
  else if state = tcpsSynSent then [[syn]]
  else if state = tcpsSimsynSent then [[syn, (tcpfcSyn, .back)]]
  else if state = tcpsSynReceived then answered
  else if state = tcpsEstablished then answered.map (· ++ [(tcpfcAck, .forw)])
  else [tcpfcSyn, tcpfcSynack].flatMap fun answer =>
    [[syn, (answer, .back), (tcpfcFin, .forw)], [syn, (answer, .back), (tcpfcFin, .back)]]

/-- One of the lists for the state is part of the record. -/
def Recorded (tracked : NpfState × List (Nat × Flow)) : Prop :=
  tracked.1.nst_state < npfTcpNstates ∧ ∃ w ∈ history tracked.1.nst_state, w.Sublist tracked.2

theorem history_step (di : Flow) (s : Fin 12) (c : Fin 5) (n : Fin 12)
    (moves : npfTcpFsm s di c = some n.val) :
    ∀ w ∈ history s, ∃ w' ∈ history n, w'.Sublist (w ++ [(c.val, di)]) := by
  revert s c n
  cases di <;> decide +kernel

/-- One of the packet lists of the new state is part of what was seen. -/
theorem recordStep_recorded {nst : NpfState} {seen : List (Nat × Flow)} (npc : NpfCache) (di : Flow)
    (recorded : Recorded (nst, seen)) :
    ∃ s', recordStep (nst, seen) (npc, di) = some s' ∧ Recorded s' := by
  obtain ⟨st, w, isHistory, isPart⟩ := recorded
  have stays {tl : List (Nat × Flow)} {nst' : NpfState} (same : nst'.nst_state = nst.nst_state) :
      Recorded (nst', seen ++ tl) :=
    ⟨same ▸ st, w, same ▸ isHistory, isPart.trans (List.sublist_append_left seen tl)⟩
  have same : (npfTcpInwindow npc nst di).2.nst_state = nst.nst_state := by
    unfold npfTcpInwindow
    dsimp only
    split
    · rfl
    · split <;> rfl
  obtain ⟨_, -, moved⟩ := trackStep_eq st (npc, di)
  obtain ⟨⟨past, s'⟩, isRes, -⟩ := map_eq_some_iff.mp moved
  refine ⟨_, map_eq_some_iff.mpr ⟨_, isRes, rfl⟩, ?_⟩
  simp only [npfStateTcp, if_neg (not_le.mpr st)] at isRes
  obtain ⟨nstate, tgt, aft⟩ := map_eq_some_iff.mp isRes
  split at aft
  · cases aft
    exact stays same
  split at aft
  · cases aft
    exact stays same
  rename_i isNew
  cases aft
  split at tgt
  · rename_i noRst
    obtain ⟨n, ent, bound⟩ := npfTcpFsm_range st di (npfTcpfl2case_lt npc.npc_tcp.th_flags)
    obtain rfl := some.inj (tgt.symm.trans ent)
    have below := bound.resolve_left isNew
    obtain ⟨w', isHistory', isPart'⟩ := history_step di ⟨_, st⟩ ⟨_, npfTcpfl2case_lt _⟩
      ⟨nstate, below⟩ tgt w isHistory
    rw [noRst]
    exact ⟨below, w', isHistory', isPart'.trans (isPart.append_right _)⟩
  split at tgt
  · exact absurd (some.inj tgt).symm isNew
  · obtain rfl := some.inj tgt
    have closed : tcpsClosed < npfTcpNstates := by decide
    exact ⟨closed, [], List.mem_cons_self, List.nil_sublist _⟩

/-- A connection is established only by a handshake and closing only after a FIN, whatever is
rejected meanwhile: the packets passed since `npf_state_init` contain a list for the state, in
order. -/
theorem track_history (packets : List (NpfCache × Flow)) :
    ∃ nst seen, consume recordStep packets (zeroState, []) = some (nst, seen) ∧
      ∃ w ∈ history nst.nst_state, w.Sublist seen := by
  have beg : Recorded (zeroState, []) := ⟨by decide, [], List.mem_cons_self, .refl []⟩
  obtain ⟨⟨nst, seen⟩, eaten, -, fnd⟩ := consume_invariant recordStep Recorded
    (fun _ _ => True) (fun _ packet recorded _ => recordStep_recorded packet.1 packet.2 recorded)
    packets beg fun _ _ _ _ _ => trivial
  exact ⟨nst, seen, eaten, fnd⟩

end NetBSD.Net.Npf
