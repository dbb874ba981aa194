import Mathlib.Algebra.Order.Ring.Int
import NetBSD.Arith.WordBits

/-!
Owns the parts of `sys/net/npf/npf_inet.c` and `npf_mbuf.c` that TCP tracking
reads a packet through: the cached headers, `npf_tcpsaw`, and the option parser
`npf_fetch_tcpopts`. Header fields are in host byte order.
-/

namespace NetBSD.Net.Npf

def thFin : UInt8 := 0x01
def thSyn : UInt8 := 0x02
def thRst : UInt8 := 0x04
def thAck : UInt8 := 0x10

def tcpoptEol : UInt8 := 0
def tcpoptNop : UInt8 := 1
def tcpoptMaxseg : UInt8 := 2
def tcpoptWindow : UInt8 := 3

def tcpolenMaxseg : Nat := 4
def tcpolenWindow : Nat := 3

def tcpMaxWinshift : Nat := 14
def sizeofTcphdr : Nat := 20

/-- A packet behind an nbuf. `contig off len` is the answer of
`nbuf_ensure_contig` for an area that does not lie in one mbuf. -/
structure Nbuf where
  bytes : List UInt8
  contig : Nat → Nat → Bool

/-- The fields of `struct tcphdr` that the tracker reads. -/
structure Tcphdr where
  th_seq : UInt32
  th_ack : UInt32
  th_off : Fin 16
  th_flags : UInt8
  th_win : UInt16

inductive CachedIp where
  | ip4 (ip_len : UInt16)
  | ip6 (ip6_plen : UInt16)
  | none

structure NpfCache where
  npc_ip : CachedIp
  npc_hlen : UInt8
  npc_tcp : Tcphdr
  npc_nbuf : Nbuf

/-- `nbuf_advance(nbuf, len, ensure)` from offset `off`. One byte at a valid
offset is always contiguous. -/
def nbufAdvance (nbuf : Nbuf) (off len ensure : Nat) : Option Nat :=
  if nbuf.bytes.length ≤ off + len then none
  else if ensure ≤ 1 then some (off + len)
  else if nbuf.contig (off + len) ensure then some (off + len)
  else none

/-- `npf_tcpsaw`: the data length, `seq`, `ack` and `win`. The length is an
`int`; here it is its 32-bit pattern. -/
def npfTcpsaw (npc : NpfCache) : UInt32 × UInt32 × UInt32 × UInt32 :=
  let th := npc.npc_tcp
  let thlen : UInt32 := UInt32.ofNat (th.th_off.val * 4)
  let tcpdlen : UInt32 := match npc.npc_ip with
    | .ip4 ip_len => ip_len.toUInt32 - npc.npc_hlen.toUInt32 - thlen
    | .ip6 ip6_plen => ip6_plen.toUInt32 - thlen
    | .none => 0
  (tcpdlen, th.th_seq, th.th_ack, th.th_win.toUInt32)

/-- The loop of `npf_fetch_tcpopts` at label `next`, with a null `mss`. The
result is the returned flag and the content of `*wscale`. Every round shortens
`topts_len`, so `fuel` only has to start at `topts_len`. -/
def fetchTcpoptsLoop (nbuf : Nbuf) : (fuel toptsLen off step wscale : Nat) → Bool × Nat
  | 0, _, _, _, wscale => (true, wscale)
  | fuel + 1, toptsLen, off, step, wscale =>
    let anyLeft (toptsLen off step wscale : Nat) : Bool × Nat :=
      if 0 < toptsLen then fetchTcpoptsLoop nbuf fuel toptsLen off step wscale
      else (true, wscale)
    match nbufAdvance nbuf off step 1 with
    | none => (false, wscale)
    | some off =>
      let val := nbuf.bytes.getD off 0
      if val = tcpoptEol then (true, wscale)
      else if val = tcpoptNop then anyLeft (toptsLen - 1) off 1 wscale
      else if val = tcpoptMaxseg then
        match nbufAdvance nbuf off 2 2 with
        | none => (false, wscale)
        | some off => anyLeft (toptsLen - tcpolenMaxseg) off 2 wscale
      else if val = tcpoptWindow then
        match nbufAdvance nbuf off 2 1 with
        | none => (false, wscale)
        | some off =>
          let val := (nbuf.bytes.getD off 0).toNat
          let wscale := if tcpMaxWinshift < val then tcpMaxWinshift else val
          anyLeft (toptsLen - tcpolenWindow) off 1 wscale
      else
        match nbufAdvance nbuf off 1 1 with
        | none => (false, wscale)
        | some off =>
          let val := (nbuf.bytes.getD off 0).toNat
          if val < 2 ∨ toptsLen < val then (false, wscale)
          else anyLeft (toptsLen - val) off (val - 1) wscale

def npfFetchTcpopts (npc : NpfCache) (wscale : Nat) : Bool × Nat :=
  let toptsLen := npc.npc_tcp.th_off.val * 4 - sizeofTcphdr
  if toptsLen = 0 then (false, wscale)
  else
    fetchTcpoptsLoop npc.npc_nbuf toptsLen toptsLen 0 (npc.npc_hlen.toNat + sizeofTcphdr) wscale

/-- One round: the loop stops with a flag, or goes on with a shorter option
area, and the scale stays as it was or is at most the maximum. -/
private theorem fetchTcpoptsLoop_round (nbuf : Nbuf) (toptsLen off step wscale : Nat)
    (pos : 0 < toptsLen) :
    (∃ flag, ∀ fuel, fetchTcpoptsLoop nbuf (fuel + 1) toptsLen off step wscale = (flag, wscale)) ∨
    ∃ toptsLen' off' step' wscale', toptsLen' < toptsLen ∧
      (wscale' = wscale ∨ wscale' ≤ tcpMaxWinshift) ∧
      ∀ fuel, fetchTcpoptsLoop nbuf (fuel + 1) toptsLen off step wscale =
        if 0 < toptsLen' then fetchTcpoptsLoop nbuf fuel toptsLen' off' step' wscale'
        else (true, wscale') := by
  simp only [fetchTcpoptsLoop]
  cases nbufAdvance nbuf off step 1 with
  | none => exact Or.inl ⟨false, fun _ => rfl⟩
  | some off =>
    simp only
    generalize nbuf.bytes.getD off 0 = val
    by_cases isEol : val = tcpoptEol
    · exact Or.inl ⟨true, fun _ => by rw [if_pos isEol]⟩
    simp only [if_neg isEol]
    by_cases isNop : val = tcpoptNop
    · simp only [if_pos isNop]
      exact Or.inr ⟨toptsLen - 1, off, 1, wscale, by omega, Or.inl rfl, fun _ => rfl⟩
    simp only [if_neg isNop]
    by_cases mss : val = tcpoptMaxseg
    · simp only [if_pos mss]
      cases nbufAdvance nbuf off 2 2 with
      | none => exact Or.inl ⟨false, fun _ => rfl⟩
      | some off =>
        have lt : toptsLen - tcpolenMaxseg < toptsLen := by
          rw [tcpolenMaxseg]
          omega
        exact Or.inr ⟨_, off, 2, wscale, lt, Or.inl rfl, fun _ => rfl⟩
    simp only [if_neg mss]
    by_cases win : val = tcpoptWindow
    · simp only [if_pos win]
      cases nbufAdvance nbuf off 2 1 with
      | none => exact Or.inl ⟨false, fun _ => rfl⟩
      | some off =>
        have lt : toptsLen - tcpolenWindow < toptsLen := by
          rw [tcpolenWindow]
          omega
        refine Or.inr ⟨_, off, 1, _, lt, Or.inr ?_, fun _ => rfl⟩
        split <;> omega
    simp only [if_neg win]
    cases nbufAdvance nbuf off 1 1 with
    | none => exact Or.inl ⟨false, fun _ => rfl⟩
    | some off =>
      simp only
      generalize (nbuf.bytes.getD off 0).toNat = len
      by_cases badLength : len < 2 ∨ toptsLen < len
      · exact Or.inl ⟨false, fun _ => by rw [if_pos badLength]⟩
      · simp only [if_neg badLength]
        exact Or.inr ⟨toptsLen - len, off, len - 1, wscale, by omega, Or.inl rfl, fun _ => rfl⟩

theorem fetchTcpoptsLoop_wscale_le (nbuf : Nbuf) (fuel : Nat) {toptsLen off step wscale : Nat}
    (pos : 0 < toptsLen) (bnd : wscale ≤ tcpMaxWinshift) :
    (fetchTcpoptsLoop nbuf fuel toptsLen off step wscale).2 ≤ tcpMaxWinshift := by
  induction fuel generalizing toptsLen off step wscale with
  | zero => exact bnd
  | succ fuel ih =>
    rcases fetchTcpoptsLoop_round nbuf toptsLen off step wscale pos with
      ⟨flag, stops⟩ | ⟨toptsLen', off', step', wscale', -, scale, more⟩
    · rw [stops]
      exact bnd
    rw [more]
    have bounded' : wscale' ≤ tcpMaxWinshift := by
      rcases scale with same | sml
      · rw [same]
        exact bnd
      · exact sml
    by_cases left : 0 < toptsLen'
    · rw [if_pos left]
      exact ih left bounded'
    · rw [if_neg left]
      exact bounded'

theorem npfFetchTcpopts_wscale_le (npc : NpfCache) {wscale : Nat}
    (bnd : wscale ≤ tcpMaxWinshift) : (npfFetchTcpopts npc wscale).2 ≤ tcpMaxWinshift := by
  simp only [npfFetchTcpopts]
  split
  · exact bnd
  · rename_i options
    exact fetchTcpoptsLoop_wscale_le _ _ (by omega) bnd

end NetBSD.Net.Npf
