import Mathlib.Algebra.Order.Ring.Nat
import Mathlib.Data.List.Sort

/-!
Owns the scoreboard of `netinet/tcp_sack.c`: the holes that the peer's SACK options leave, and the
one pass of `tcp_sack_option` over sorted blocks and holes. Whether `sack_allochole` succeeds is a
parameter.
-/

namespace NetBSD.Netinet

open List

section Model

abbrev TcpSeq := BitVec 32

def seqLt (a b : TcpSeq) : Bool := (a - b).slt 0
def seqLeq (a b : TcpSeq) : Bool := (a - b).sle 0
def seqGt (a b : TcpSeq) : Bool := !seqLeq a b
def seqGeq (a b : TcpSeq) : Bool := !seqLt a b
def seqMin (a b : TcpSeq) : TcpSeq := if seqLt a b then a else b
def seqMax (a b : TcpSeq) : TcpSeq := if seqGt a b then a else b

structure Sackblk where
  left : TcpSeq
  right : TcpSeq
deriving DecidableEq

structure Sackhole where
  start : TcpSeq
  stop : TcpSeq
  rxmit : TcpSeq
deriving DecidableEq

structure Tcpcb where
  snd_una : TcpSeq
  snd_max : TcpSeq
  snd_fack : TcpSeq
  rcv_lastsack : TcpSeq
  snd_holes : List Sackhole
deriving DecidableEq

/-- The scoreboard while an option is processed: the holes before `cur`, and those from it on. -/
structure Scan where
  snd_fack : TcpSeq
  rcv_lastsack : TcpSeq
  passed : List Sackhole
  cur : List Sackhole
deriving DecidableEq

abbrev Scan.holes (s : Scan) : List Sackhole := s.passed ++ s.cur

/-- An early return, with what has been changed by then; `none` where the loop does not end. -/
abbrev Exit := Option Scan

/-- The loop over the holes from `cur` on. -/
def walkHoles (alloc : Scan → Bool) (sack : Sackblk) (s : Scan) :
    List Sackhole → Except Exit Scan
  | [] => .ok { s with cur := [] }
  | cur :: rest =>
    if seqLeq sack.right cur.start then .ok { s with cur := cur :: rest }
    else if seqGeq sack.left cur.stop then
      walkHoles alloc sack { s with passed := s.passed ++ [cur] } rest
    else if seqLeq sack.left cur.start then
      if seqGeq sack.right cur.stop then .ok { s with cur := rest }
      else
        .ok { s with cur := ⟨sack.right, cur.stop, seqMax cur.rxmit sack.right⟩ :: rest }
    else
      let front : Sackhole := ⟨cur.start, sack.left, seqMin cur.rxmit sack.left⟩
      if seqGeq sack.right cur.stop then
        .ok { s with passed := s.passed ++ [front], cur := rest }
      else if seqLt cur.start sack.left && seqGt cur.stop sack.right then
        if alloc s then
          .ok { s with
            passed := s.passed ++ [front]
            cur := ⟨sack.right, cur.stop, seqMax cur.rxmit sack.right⟩ :: rest }
        else .error (some { s with cur := cur :: rest })
      -- The ends are `2 ^ 31` apart: the hole stays the current one.
      else .error none

/-- The turn of one block. -/
def sackTurn (alloc : Scan → Bool) (th_ack : TcpSeq) (s : Scan) (sack : Sackblk) :
    Except Exit Scan :=
  let s := if seqGeq sack.right s.snd_fack then { s with snd_fack := sack.right } else s
  let insert (start : TcpSeq) (s : Scan) : Except Exit Scan :=
    if alloc s then
      .ok { s with passed := s.holes, cur := [⟨start, sack.left, start⟩] }
    else .error (some s)
  if s.holes = [] then do
    let s ← insert th_ack s
    .ok { s with rcv_lastsack := sack.right }
  else do
    let s ← walkHoles alloc sack s s.cur
    let s ← if seqLt s.rcv_lastsack sack.left then insert s.rcv_lastsack s else .ok s
    .ok (if seqLt s.rcv_lastsack sack.right then { s with rcv_lastsack := sack.right } else s)

/-- `acked` of `tcp_sack_option`. -/
def Tcpcb.acked (tp : Tcpcb) (th_ack : TcpSeq) : TcpSeq :=
  if seqGt th_ack tp.snd_una then th_ack else tp.snd_una

/-- Whether a block is neither old nor invalid. -/
def Tcpcb.accepts (tp : Tcpcb) (th_ack : TcpSeq) (b : Sackblk) : Bool :=
  !(seqLeq b.right (tp.acked th_ack) || seqGt b.right tp.snd_max || seqGeq b.left b.right)

/-- The insertion sort, which looks for the place of a block from the end of the array. -/
def sortBlocks (blks : List Sackblk) : List Sackblk :=
  (blks.reverse.insertionSort fun x y => seqLt x.left y.left = false).reverse

def Tcpcb.sorted (tp : Tcpcb) (th_ack : TcpSeq) (blks : List Sackblk) : List Sackblk :=
  sortBlocks (blks.filter (tp.accepts th_ack))

def Tcpcb.scan (tp : Tcpcb) : Scan := ⟨tp.snd_fack, tp.rcv_lastsack, [], tp.snd_holes⟩

def Tcpcb.leave (tp : Tcpcb) (s : Scan) : Tcpcb :=
  { tp with snd_fack := s.snd_fack, rcv_lastsack := s.rcv_lastsack, snd_holes := s.holes }

/-- `tcp_sack_option`, for the blocks of an option of valid length, in host order. -/
def tcpSackOption (alloc : Scan → Bool) (tp : Tcpcb) (th_ack : TcpSeq) (blks : List Sackblk) :
    Option Tcpcb :=
  if seqLt th_ack tp.snd_una || seqGt th_ack tp.snd_max then some tp
  else
    match (tp.sorted th_ack blks).foldlM (sackTurn alloc th_ack) tp.scan with
    | .ok s => some (tp.leave s)
    | .error exit => exit.map tp.leave

def delHoles (lastack : TcpSeq) : List Sackhole → List Sackhole
  | [] => []
  | cur :: rest =>
    if seqLeq cur.stop lastack then delHoles lastack rest
    else if seqLt cur.start lastack then
      ⟨lastack, cur.stop, if seqLt cur.rxmit lastack then lastack else cur.rxmit⟩ :: rest
    else cur :: rest

def tcpDelSackholes (tp : Tcpcb) (th_ack : TcpSeq) : Tcpcb :=
  { tp with snd_holes := delHoles (tp.acked th_ack) tp.snd_holes }

/-- What `tcp_input` does with an acknowledgement once the options are processed. -/
def Tcpcb.acknowledge (tp : Tcpcb) (th_ack : TcpSeq) : Tcpcb :=
  let tp := tcpDelSackholes tp th_ack
  if seqGt th_ack tp.snd_una && seqLeq th_ack tp.snd_max then { tp with snd_una := th_ack } else tp

/-- The bytes that a block or a hole stands for. -/
def Covers (left right byte : TcpSeq) : Prop := seqLeq left byte ∧ seqLt byte right

def Sackblk.Meets (sack : Sackblk) (h : Sackhole) : Prop :=
  seqLt sack.left h.stop ∧ seqLt h.start sack.right

/-- The bytes SACKed so far and those of a block. -/
def With (sacked : TcpSeq → Prop) (sack : Sackblk) (x : TcpSeq) : Prop :=
  sacked x ∨ Covers sack.left sack.right x

/-- The turn of a block that has bytes in one hole at most, and that finds an empty list only where
nothing else from `th_ack` on has been SACKed. -/
structure TurnOk (th_ack : TcpSeq) (sacked : TcpSeq → Prop) (s : Scan) (sack : Sackblk) :
    Prop where
  one : s.holes.Pairwise fun h k => ¬ (sack.Meets h ∧ sack.Meets k)
  fresh : s.holes = [] → ∀ x, sacked x → seqLt x th_ack ∨ Covers sack.left sack.right x

def TurnsOk (th_ack : TcpSeq) : (TcpSeq → Prop) → Scan → List Sackblk → Prop
  | _, _, [] => True
  | sacked, s, sack :: rest => TurnOk th_ack sacked s sack ∧
      ∀ s', sackTurn (fun _ => true) th_ack s sack = .ok s' →
        TurnsOk th_ack (With sacked sack) s' rest

end Model

section Window

variable (una : TcpSeq)

/-- How far a sequence number is beyond `snd_una`. -/
def off (una seq : TcpSeq) : Nat := (seq - una).toNat

theorem off_lt (a : TcpSeq) : off una a < 2 ^ 32 := BitVec.isLt _

theorem off_self : off una una = 0 := by simp [off]

theorem seqLt_off (a b : TcpSeq) :
    seqLt a b = true ↔ 2 ^ 31 ≤ (off una a + 2 ^ 32 - off una b) % 2 ^ 32 := by
  simp only [seqLt, off, BitVec.slt, BitVec.toInt_eq_toNat_cond, decide_eq_true_eq,
    BitVec.toNat_sub, BitVec.ofNat_eq_ofNat, BitVec.toNat_ofNat]
  omega

theorem seqLeq_off (a b : TcpSeq) : seqLeq a b = true ↔ off una a = off una b ∨
      2 ^ 31 ≤ (off una a + 2 ^ 32 - off una b) % 2 ^ 32 := by
  simp only [seqLeq, off, BitVec.sle, BitVec.toInt_eq_toNat_cond, decide_eq_true_eq,
    BitVec.toNat_sub, BitVec.ofNat_eq_ofNat, BitVec.toNat_ofNat]
  omega

theorem seqLt_iff {a b : TcpSeq} (nearA : off una a < 2 ^ 31) (nearB : off una b < 2 ^ 31) :
    seqLt a b = true ↔ off una a < off una b := by
  rw [seqLt_off una]
  omega

theorem seqLeq_iff {a b : TcpSeq} (nearA : off una a < 2 ^ 31) (nearB : off una b < 2 ^ 31) :
    seqLeq a b = true ↔ off una a ≤ off una b := by
  rw [seqLeq_off una]
  omega

theorem covers_iff {a b x : TcpSeq} (nearA : off una a < 2 ^ 31) (nearB : off una b < 2 ^ 31)
    (order : off una a < off una b) :
    Covers a b x ↔ off una a ≤ off una x ∧ off una x < off una b := by
  rw [Covers, seqLt_off una, seqLeq_off una]
  omega

end Window

section Scoreboard

variable {una : TcpSeq} {sacked : TcpSeq → Prop} {last : Nat} {sack : Sackblk}

/-- No byte of the block is in the hole. -/
def Sackhole.Avoids (una : TcpSeq) (sack : Sackblk) (h : Sackhole) : Prop :=
  off una h.stop ≤ off una sack.left ∨ off una sack.right ≤ off una h.start

/-- The holes are in order, before `last`, and have no SACKed byte. -/
structure Clear (una : TcpSeq) (sacked : TcpSeq → Prop) (last : Nat) (holes : List Sackhole) :
    Prop where
  order : holes.Pairwise fun h k => off una h.stop ≤ off una k.start
  proper : ∀ h ∈ holes, off una h.start < off una h.stop ∧ off una h.stop ≤ last
  clear : ∀ h ∈ holes, ∀ x, sacked x →
    ¬ (off una h.start ≤ off una x ∧ off una x < off una h.stop)

/-- A hole replaced by parts of it. -/
theorem Clear.shrink {pre tl segs : List Sackhole} {c : Sackhole}
    (was : Clear una sacked last (pre ++ c :: tl))
    (lt : ∀ h ∈ segs, off una h.start < off una h.stop ∧
      off una c.start ≤ off una h.start ∧ off una h.stop ≤ off una c.stop)
    (order : segs.Pairwise fun h k => off una h.stop ≤ off una k.start) :
    Clear una sacked last (pre ++ (segs ++ tl)) := by
  have parts := was.order
  rw [pairwise_append, pairwise_cons] at parts
  have proper := was.proper
  have clear := was.clear
  refine ⟨?_, ?_, ?_⟩
  · simp only [pairwise_append]
    grind
  · simp only [mem_append]
    grind
  · simp only [mem_append]
    grind

/-- The scoreboard between two turns, where the blocks to come begin at `lo` or later. -/
structure Going (una snd_max : TcpSeq) (sacked : TcpSeq → Prop) (lo : Nat) (s : Scan) : Prop where
  window : off una snd_max < 2 ^ 31
  clear : Clear una sacked (off una s.rcv_lastsack) s.holes
  bounded : ∀ x, sacked x → off una x < off una snd_max
  front : s.holes ≠ [] → off una s.rcv_lastsack ≤ off una snd_max ∧
    ∀ x, sacked x → off una x < off una s.rcv_lastsack
  behind : ∀ h ∈ s.passed, off una h.stop ≤ lo

variable {holes : List Sackhole}

theorem Clear.mono {last' : Nat} (le : last ≤ last') (was : Clear una sacked last holes) :
    Clear una sacked last' holes :=
  ⟨was.order, fun h mem => ⟨(was.proper h mem).1, (was.proper h mem).2.trans le⟩, was.clear⟩

theorem Clear.insert {beg stop rxmit : TcpSeq} (was : Clear una sacked (off una beg) holes)
    (full : off una beg < off una stop)
    (clear : ∀ x, sacked x → ¬ (off una beg ≤ off una x ∧ off una x < off una stop)) :
    Clear una sacked (off una stop) (holes ++ [⟨beg, stop, rxmit⟩]) := by
  obtain ⟨order, proper, wasClear⟩ := was
  refine ⟨?_, ?_, ?_⟩
  · simp only [pairwise_append]
    grind
  · grind
  · grind

variable {snd_max th_ack : TcpSeq}

section Block

variable (proper : off una sack.left < off una sack.right) (near : off una sack.right < 2 ^ 31)

include proper near

theorem Clear.add (was : Clear una sacked last holes) (avoids : ∀ h ∈ holes, h.Avoids una sack) :
    Clear una (With sacked sack) last holes := by
  refine ⟨was.order, was.proper, ?_⟩
  rintro h mem x (old | new)
  · exact was.clear h mem x old
  · have := (covers_iff una (by omega) near proper).1 new
    have := avoids h mem
    unfold Sackhole.Avoids at this
    omega

/-- The walk cuts the block out of the holes it meets. -/
theorem walkHoles_spec (lastNear : last < 2 ^ 31) (cur : List Sackhole) (s : Scan)
    (clear : Clear una sacked last (s.passed ++ cur))
    (tail : ∀ h ∈ s.passed, off una h.stop ≤ off una sack.left)
    (one : (s.passed ++ cur).Pairwise fun h k => h.Avoids una sack ∨ k.Avoids una sack) :
    ∃ past s', walkHoles (fun _ => true) sack s cur =
        .ok { s with passed := past, cur := s' } ∧
      Clear una (With sacked sack) last (past ++ s') ∧
      ∀ h ∈ past, off una h.stop ≤ off una sack.left := by
  induction cur generalizing s with
  | nil =>
    exact ⟨s.passed, [], rfl,
      clear.add proper near fun h mem => .inl (tail h (by simpa using mem)), tail⟩
  | cons c tl ih =>
    have parts := clear.order
    have sgl := one
    rw [pairwise_append, pairwise_cons] at parts sgl
    obtain ⟨-, ⟨above, -⟩, -⟩ := parts
    obtain ⟨-, ⟨alone, -⟩, -⟩ := sgl
    obtain ⟨full, below⟩ := clear.proper c (by simp)
    -- The hole leaves some parts before the place where the next block goes on, and some behind it.
    have leave (done next : List Sackhole)
        (lt : ∀ h ∈ done ++ next, off una h.start < off una h.stop ∧
          off una c.start ≤ off una h.start ∧ off una h.stop ≤ off una c.stop)
        (order : (done ++ next).Pairwise fun h k => off una h.stop ≤ off una k.start)
        (ended : ∀ h ∈ done, off una h.stop ≤ off una sack.left)
        (fits : ∀ h ∈ next ++ tl, h.Avoids una sack) :
        Clear una (With sacked sack) last ((s.passed ++ done) ++ (next ++ tl)) ∧
          ∀ h ∈ s.passed ++ done, off una h.stop ≤ off una sack.left := by
      have shrunk := clear.shrink lt order
      have ended : ∀ h ∈ s.passed ++ done, off una h.stop ≤ off una sack.left :=
        forall_mem_append.2 ⟨tail, ended⟩
      refine ⟨Clear.add proper near (by simpa using shrunk) ?_, ended⟩
      exact forall_mem_append.2 ⟨fun h mem => .inl (ended h mem), fits⟩
    have farther (ends : off una sack.right ≤ off una c.stop) (h) (mem : h ∈ tl) :
        h.Avoids una sack := .inr (ends.trans (above h mem))
    have oths (meets : ¬ c.Avoids una sack) (h) (mem : h ∈ tl) :=
      (alone h mem).resolve_left meets
    have c₁ := seqLeq_iff una (a := sack.right) (b := c.start) (by omega) (by omega)
    have c₂ := seqLt_iff una (a := sack.left) (b := c.stop) (by omega) (by omega)
    have c₃ := seqLeq_iff una (a := sack.left) (b := c.start) (by omega) (by omega)
    have c₄ := seqLt_iff una (a := sack.right) (b := c.stop) (by omega) (by omega)
    have c₅ := seqLt_iff una (a := c.start) (b := sack.left) (by omega) (by omega)
    have c₆ := seqLeq_iff una (a := c.stop) (b := sack.right) (by omega) (by omega)
    unfold walkHoles
    simp only [seqGt, seqGeq, Bool.not_eq_true', Bool.and_eq_true, ← Bool.not_eq_true, c₁, c₂, c₃,
      c₄, c₅, c₆, if_true]
    unfold Sackhole.Avoids at *
    split_ifs with before within begins short short lt
    · exact ⟨_, _, by simp, leave [] [c] (by simp; omega) (by simp) (by simp)
        (forall_mem_cons.2 ⟨.inr before, farther (by omega)⟩)⟩
    · exact ⟨_, _, by simp, leave [] [⟨sack.right, c.stop, seqMax c.rxmit sack.right⟩]
        (by simp; omega) (by simp) (by simp)
        (forall_mem_cons.2 ⟨.inr le_rfl, farther (by omega)⟩)⟩
    · exact ⟨_, _, by simp, leave [] [] (by simp) (by simp) (by simp) (oths (by omega))⟩
    · exact ⟨_, _, rfl, leave [⟨c.start, sack.left, seqMin c.rxmit sack.left⟩]
        [⟨sack.right, c.stop, seqMax c.rxmit sack.right⟩] (by simp; omega) (by simp; omega)
        (by simp) (forall_mem_cons.2 ⟨.inr le_rfl, farther (by omega)⟩)⟩
    · omega
    · exact ⟨_, _, rfl, leave [⟨c.start, sack.left, seqMin c.rxmit sack.left⟩] []
        (by simp; omega) (by simp) (by simp) (oths (by omega))⟩
    · refine ih { s with passed := s.passed ++ [c] } (by simpa using clear) ?_ (by simpa using one)
      simpa [or_imp, forall_and] using ⟨tail, by omega⟩

/-- One block of an option, applied to the holes. -/
theorem sackTurn_spec {lo : Nat} {s : Scan} (going : Going una snd_max sacked lo s)
    (sort : lo ≤ off una sack.left) (new : off una th_ack < off una sack.left)
    (sent : off una sack.right ≤ off una snd_max) (ok : TurnOk th_ack sacked s sack) :
    ∃ s', sackTurn (fun _ => true) th_ack s sack = .ok s' ∧
      Going una snd_max (With sacked sack) (off una sack.left) s' := by
  obtain ⟨window, clear, bnd, pre, tail⟩ := going
  have within (x) : Covers sack.left sack.right x ↔ _ := covers_iff una (by omega) near proper
  have bounded' (x) (mem : With sacked sack x) : off una x < off una snd_max := by
    rcases mem with old | new
    · exact bnd x old
    · have := (within x).1 new
      omega
  obtain ⟨fack, eq⟩ : ∃ fack, (if seqGeq sack.right s.snd_fack then
      { s with snd_fack := sack.right } else s) = { s with snd_fack := fack } := by
    split_ifs
    exacts [⟨_, rfl⟩, ⟨_, rfl⟩]
  simp only [sackTurn, eq, if_true]
  by_cases empty : s.holes = []
  · have fresh (x) (mem : With sacked sack x) : off una x < off una th_ack ∨
        off una sack.left ≤ off una x ∧ off una x < off una sack.right := by
      rw [← within]
      rcases mem with old | new
      · have := bnd x old
        exact (ok.fresh empty x old).imp_left (seqLt_iff una (by omega) (by omega)).1
      · exact .inr new
    rw [if_pos empty]
    have beg : Clear una (With sacked sack) (off una th_ack) s.holes := by
      rw [empty]
      exact ⟨.nil, by simp, by simp⟩
    refine ⟨_, rfl, window, ?_, bounded', fun _ => ⟨sent, fun x mem => ?_⟩, by simp [empty]⟩
    · refine (beg.insert new fun x mem => ?_).mono proper.le
      have := fresh x mem
      omega
    · have := fresh x mem
      dsimp only
      omega
  · obtain ⟨lastLe, pre⟩ := pre empty
    have one : s.holes.Pairwise fun h k => h.Avoids una sack ∨ k.Avoids una sack := by
      have avoids (h) (mem : h ∈ s.holes) : h.Avoids una sack ↔ ¬ sack.Meets h := by
        have := clear.proper h mem
        simp only [Sackhole.Avoids, Sackblk.Meets]
        rw [seqLt_iff una (by omega) (by omega), seqLt_iff una (by omega) (by omega)]
        omega
      exact ok.one.imp_of_mem fun {h k} memH memK not => by
        rw [avoids h memH, avoids k memK]
        tauto
    obtain ⟨past, after, walked, clear', behind'⟩ := walkHoles_spec proper near (by omega) s.cur
      { s with snd_fack := fack } clear (fun h mem => (tail h mem).trans sort) one
    rw [if_neg empty]
    have c₁ := seqLt_iff una (a := s.rcv_lastsack) (b := sack.left) (by omega) (by omega)
    have c₂ := seqLt_iff una (a := s.rcv_lastsack) (b := sack.right) (by omega) (by omega)
    have upTo (x) (mem : With sacked sack x) : off una x < off una s.rcv_lastsack ∨
        off una sack.left ≤ off una x ∧ off una x < off una sack.right :=
      mem.imp (pre x) (within x).1
    simp only [walked, bind, Except.bind, c₁]
    split_ifs with gap lower lower
    · refine ⟨_, rfl, window, ?_, bounded', fun _ => ⟨sent, fun x mem => ?_⟩, fun h mem => ?_⟩
      · refine (clear'.insert gap fun x mem => ?_).mono proper.le
        have := upTo x mem
        omega
      · have := upTo x mem
        dsimp only
        omega
      · have := (clear'.proper h mem).2
        omega
    · exact absurd (c₂.2 (by omega)) lower
    · have := c₂.1 lower
      refine ⟨_, rfl, window, clear'.mono this.le, bounded', fun _ => ⟨sent, fun x mem => ?_⟩,
        behind'⟩
      have := upTo x mem
      dsimp only
      omega
    · rw [c₂] at lower
      refine ⟨_, rfl, window, clear', bounded', fun _ => ⟨lastLe, fun x mem => ?_⟩, behind'⟩
      have := upTo x mem
      dsimp only
      omega

end Block

/-- The scoreboard between two options. -/
def Tcpcb.WellFormed (tp : Tcpcb) (sacked : TcpSeq → Prop) : Prop :=
  Going tp.snd_una tp.snd_max sacked 0 tp.scan

theorem turns_spec (blks : List Sackblk) (lo : Nat) (s : Scan)
    (going : Going una snd_max sacked lo s) (above : ∀ b ∈ blks, lo ≤ off una b.left)
    (sort : blks.Pairwise fun b c => off una b.left ≤ off una c.left)
    (fits : ∀ b ∈ blks, off una th_ack < off una b.left ∧ off una b.left < off una b.right ∧
      off una b.right ≤ off una snd_max)
    (ok : TurnsOk th_ack sacked s blks) :
    ∃ s' lo', blks.foldlM (sackTurn (fun _ => true) th_ack) s = .ok s' ∧
      Going una snd_max (fun x => sacked x ∨ ∃ b ∈ blks, Covers b.left b.right x) lo' s' := by
  induction blks generalizing lo s sacked with
  | nil => exact ⟨s, lo, rfl, by simpa using going⟩
  | cons b tl ih =>
    rw [forall_mem_cons] at above fits
    rw [pairwise_cons] at sort
    obtain ⟨⟨new, proper, sent⟩, fits⟩ := fits
    obtain ⟨s₁, turned, going⟩ := sackTurn_spec proper (by have := going.window; omega) going
      above.1 new sent ok.1
    obtain ⟨s', lo', run, going⟩ := ih _ s₁ going sort.1 sort.2 fits (ok.2 s₁ turned)
    refine ⟨s', lo', by simp only [foldlM_cons, turned]; exact run, ?_⟩
    simpa [With, or_assoc] using going

theorem sortBlocks_pairwise {blks : List Sackblk} (near : ∀ b ∈ blks, off una b.left < 2 ^ 31) :
    (sortBlocks blks).Pairwise fun b c => off una b.left ≤ off una c.left := by
  rw [sortBlocks, pairwise_reverse]
  have sort := pairwise_insertionSort (α := Nat) (· ≥ ·)
    (blks.reverse.map fun b => off una b.left)
  rw [← map_insertionSort fun x y : Sackblk => seqLt x.left y.left = false] at sort
  · exact pairwise_map.1 sort
  · intro b memB c memC
    have := near b (by simpa using memB)
    have := near c (by simpa using memC)
    rw [← Bool.not_eq_true, seqLt_iff una (by omega) (by omega)]
    omega

variable {tp : Tcpcb}

theorem accepts_spec {b : Sackblk} (window : off tp.snd_una tp.snd_max < 2 ^ 31)
    (rng : (seqLt th_ack tp.snd_una || seqGt th_ack tp.snd_max) = false)
    (acc : tp.accepts th_ack b = true) (lt : seqLt th_ack b.left = true) :
    off tp.snd_una th_ack < off tp.snd_una b.left ∧
      off tp.snd_una b.left < off tp.snd_una b.right ∧
      off tp.snd_una b.right ≤ off tp.snd_una tp.snd_max := by
  have self := off_self tp.snd_una
  have ackSpace := off_lt tp.snd_una th_ack
  have rightSpace := off_lt tp.snd_una b.right
  simp only [Tcpcb.accepts, Tcpcb.acked, seqGt, seqGeq, Bool.not_eq_true', ← Bool.not_eq_true,
    Bool.or_eq_true, not_or, not_not, seqLt_off tp.snd_una, seqLeq_off tp.snd_una] at *
  split_ifs at acc <;> omega

theorem Going.rescan {lo : Nat} {s : Scan} (going : Going una snd_max sacked lo s) :
    Going una snd_max sacked 0 { s with passed := [], cur := s.holes } :=
  ⟨going.window, going.clear, going.bounded, going.front, by simp⟩

theorem tcpSackOption_spec {blks : List Sackblk} (was : tp.WellFormed sacked)
    (rng : (seqLt th_ack tp.snd_una || seqGt th_ack tp.snd_max) = false)
    (lt : ∀ b ∈ blks, tp.accepts th_ack b → seqLt th_ack b.left)
    (ok : TurnsOk th_ack sacked tp.scan (tp.sorted th_ack blks)) :
    ∃ tp', tcpSackOption (fun _ => true) tp th_ack blks = some tp' ∧ tp'.WellFormed fun x =>
      sacked x ∨ ∃ b ∈ blks, tp.accepts th_ack b ∧ Covers b.left b.right x := by
  have mem (b) : b ∈ tp.sorted th_ack blks ↔ b ∈ blks ∧ tp.accepts th_ack b := by
    simp [Tcpcb.sorted, sortBlocks]
  have fits (b) (memB : b ∈ tp.sorted th_ack blks) :=
    have lst := (mem b).1 memB
    accepts_spec was.window rng lst.2 (lt b lst.1 lst.2)
  have window := was.window
  obtain ⟨s', _, run, going⟩ := turns_spec (tp.sorted th_ack blks) 0 tp.scan was (by simp)
    (sortBlocks_pairwise fun b memB => by
      have := fits b (by simpa [Tcpcb.sorted, sortBlocks] using memB)
      omega) fits ok
  refine ⟨tp.leave s', ?_, ?_⟩
  · simp only [tcpSackOption, rng, run, Bool.false_eq_true, if_false]
  · simp only [mem, and_assoc] at going
    exact going.rescan

theorem delHoles_spec {lastack : TcpSeq} {holes : List Sackhole}
    (near : holes ≠ [] → last < 2 ^ 31) (clear : Clear una sacked last holes) :
    Clear una sacked last (delHoles lastack holes) ∧
      (off una lastack < 2 ^ 31 → ∀ h ∈ delHoles lastack holes,
        off una lastack ≤ off una h.start) := by
  induction holes with
  | nil => exact ⟨clear, by simp [delHoles]⟩
  | cons c tl ih =>
    have above := (pairwise_cons.1 clear.order).1
    have := clear.proper c (by simp)
    have near := near (by simp)
    have shrink (segs) := @Clear.shrink una sacked last [] tl segs c clear
    unfold delHoles
    simp only [seqLeq_off una c.stop, seqLt_off una c.start]
    split
    · exact ih (fun _ => near) (by simpa using shrink [])
    split
    · refine ⟨shrink [_] (by simp; omega) (by simp), fun _ => ?_⟩
      refine forall_mem_cons.2 ⟨le_rfl, fun h mem => ?_⟩
      have := above h mem
      omega
    · refine ⟨clear, fun _ => forall_mem_cons.2 ⟨by omega, fun h mem => ?_⟩⟩
      have := above h mem
      omega

theorem off_sub {seq ack : TcpSeq} (tail : off una ack ≤ off una seq) :
    off ack seq = off una seq - off una ack := by
  simp only [off, BitVec.toNat_sub] at *
  omega

/-- The same scoreboard, seen from an acknowledgement that no hole is before. -/
theorem Going.advance {ack : TcpSeq} {s : Scan} (was : Going una snd_max sacked 0 s)
    (sent : off una ack ≤ off una snd_max) (ahead : ∀ h ∈ s.holes, off una ack ≤ off una h.start) :
    Going ack snd_max (fun x => sacked x ∧ seqGeq x ack) 0 s := by
  obtain ⟨window, ⟨order, proper, clear⟩, bnd, pre, tail⟩ := was
  have moved (h) (mem : h ∈ s.holes) : off una ack ≤ off una h.start ∧
      off una h.start < off una h.stop ∧ off una h.stop ≤ off una s.rcv_lastsack ∧
      off ack h.start = off una h.start - off una ack ∧
      off ack h.stop = off una h.stop - off una ack ∧
      off ack s.rcv_lastsack = off una s.rcv_lastsack - off una ack := by
    have begins := ahead h mem
    obtain ⟨full, below⟩ := proper h mem
    exact ⟨begins, full, below, off_sub begins, off_sub (by omega), off_sub (by omega)⟩
  have fewer (x) (old : sacked x ∧ seqGeq x ack) : off una ack ≤ off una x ∧
      off ack x = off una x - off una ack := by
    obtain ⟨old, later⟩ := old
    have := bnd x old
    simp only [seqGeq, Bool.not_eq_true', ← Bool.not_eq_true] at later
    rw [seqLt_iff una (by omega) (by omega)] at later
    exact ⟨by omega, off_sub (by omega)⟩
  refine ⟨?_, ⟨?_, fun h mem => ?_, fun h mem x old => ?_⟩, fun x old => ?_, fun pos => ?_,
    fun h mem => ?_⟩
  · rw [off_sub sent]
    omega
  · refine order.imp_of_mem fun {h k} memH memK order => ?_
    have := moved h memH
    have := moved k memK
    omega
  · have := moved h mem
    omega
  · have := moved h mem
    have := fewer x old
    have := clear h mem x old.1
    omega
  · have := fewer x old
    have := bnd x old.1
    rw [off_sub sent]
    omega
  · obtain ⟨lastLe, all⟩ := pre pos
    obtain ⟨h, mem⟩ := exists_mem_of_ne_nil _ pos
    have := moved h mem
    rw [off_sub sent]
    refine ⟨by omega, fun x old => ?_⟩
    have := fewer x old
    have := all x old.1
    omega
  · have := tail h mem
    have := proper h (by simp [mem])
    omega

theorem acknowledge_spec (was : tp.WellFormed sacked) (th_ack : TcpSeq) :
    (tp.acknowledge th_ack).WellFormed fun x =>
      sacked x ∧ seqGeq x (tp.acknowledge th_ack).snd_una := by
  obtain ⟨window, clear, bnd, pre, -⟩ := was
  obtain ⟨clear', ahead⟩ := @delHoles_spec _ _ _ (tp.acked th_ack) _
    (fun pos => (pre pos).1.trans_lt window) clear
  have left (pos : delHoles (tp.acked th_ack) tp.snd_holes ≠ []) : tp.snd_holes ≠ [] :=
    fun no => pos (by rw [no, delHoles])
  have deleted : (tcpDelSackholes tp th_ack).WellFormed sacked :=
    ⟨window, clear', bnd, fun pos => pre (left pos), by simp [Tcpcb.scan]⟩
  have self := off_self tp.snd_una
  by_cases new : (seqGt th_ack tp.snd_una && seqLeq th_ack tp.snd_max) = true
  · have eq : tp.acknowledge th_ack = { tcpDelSackholes tp th_ack with snd_una := th_ack } :=
      if_pos new
    rw [Bool.and_eq_true] at new
    have acked : tp.acked th_ack = th_ack := if_pos new.1
    have sent : off tp.snd_una th_ack ≤ off tp.snd_una tp.snd_max := by
      have := off_lt tp.snd_una th_ack
      simp only [seqGt, Bool.not_eq_true', ← Bool.not_eq_true, seqLeq_off tp.snd_una] at new
      omega
    rw [eq]
    refine deleted.advance sent fun h mem => ?_
    have ahead := ahead (by rw [acked]; omega) h mem
    rwa [acked] at ahead
  · rw [show tp.acknowledge th_ack = tcpDelSackholes tp th_ack from if_neg new]
    exact deleted.advance (by simp [tcpDelSackholes, self]) (by simp [tcpDelSackholes, self])

/-- The scoreboards of a connection, each with the bytes from `snd_una` on that accepted blocks have
covered, while no list of holes is reset and each option's turns are as in `TurnOk`. -/
inductive Reached : Tcpcb → (TcpSeq → Prop) → Prop
  | start {tp : Tcpcb} (wellFormed : tp.WellFormed fun _ => False) : Reached tp fun _ => False
  | sack {tp tp' : Tcpcb} {sacked : TcpSeq → Prop} {th_ack : TcpSeq} {blks : List Sackblk}
      (before : Reached tp sacked)
      (inRange : (seqLt th_ack tp.snd_una || seqGt th_ack tp.snd_max) = false)
      (inside : ∀ b ∈ blks, tp.accepts th_ack b → seqLt th_ack b.left)
      (ok : TurnsOk th_ack sacked tp.scan (tp.sorted th_ack blks))
      (done : tcpSackOption (fun _ => true) tp th_ack blks = some tp') :
      Reached tp' fun x => sacked x ∨ ∃ b ∈ blks, tp.accepts th_ack b ∧ Covers b.left b.right x
  | ack {tp : Tcpcb} {sacked : TcpSeq → Prop} (before : Reached tp sacked) (th_ack : TcpSeq) :
      Reached (tp.acknowledge th_ack) fun x =>
        sacked x ∧ seqGeq x (tp.acknowledge th_ack).snd_una
  | send {tp : Tcpcb} {sacked : TcpSeq → Prop} (before : Reached tp sacked) (snd_max : TcpSeq)
      (more : off tp.snd_una tp.snd_max ≤ off tp.snd_una snd_max)
      (window : off tp.snd_una snd_max < 2 ^ 31) : Reached { tp with snd_max := snd_max } sacked
  | rexmit {tp : Tcpcb} {sacked : TcpSeq → Prop} (before : Reached tp sacked)
      (sent : Sackhole → TcpSeq) : Reached
        { tp with snd_holes := tp.snd_holes.map fun h => { h with rxmit := sent h } } sacked

theorem Reached.wellFormed (got : Reached tp sacked) : tp.WellFormed sacked := by
  induction got with
  | start wf => exact wf
  | sack prev rng lt ok done ih =>
    obtain ⟨tp', eq, s'⟩ := tcpSackOption_spec ih rng lt ok
    cases done.symm.trans eq
    exact s'
  | ack prev th_ack ih => exact acknowledge_spec ih th_ack
  | send prev snd_max more window ih =>
    exact ⟨window, ih.clear, fun x mem => (ih.bounded x mem).trans_le more,
      fun pos => (ih.front pos).imp_left (·.trans more), ih.behind⟩
  | rexmit prev sent ih =>
    obtain ⟨window, ⟨order, proper, clear⟩, bnd, pre, -⟩ := ih
    exact ⟨window, ⟨pairwise_map.2 order, forall_mem_map.2 proper,
      forall_mem_map.2 clear⟩, bnd, fun pos => pre fun no => pos (by
        simpa [Tcpcb.scan] using no), nofun⟩

/-- No byte that an accepted block has covered lies inside a hole. -/
theorem sacked_leaves_holes {tp : Tcpcb} (reached : Reached tp sacked) :
    ∀ h ∈ tp.snd_holes, ∀ x, sacked x → ¬ Covers h.start h.stop x := by
  intro h mem x old
  obtain ⟨window, clear, -, pre, -⟩ := reached.wellFormed
  have := (pre (ne_nil_of_mem mem)).1
  have proper := clear.proper h mem
  rw [covers_iff tp.snd_una (by omega) (by omega) proper.1]
  exact clear.clear h mem x old

/-- Two options: the first leaves two holes, and the block of the second splits one of them. -/
theorem sacked_leaves_holes_first :
    tcpSackOption (fun _ => true) ⟨10, 60, 10, 10, []⟩ 10 [⟨20, 30⟩, ⟨40, 50⟩] =
        some ⟨10, 60, 50, 50, [⟨10, 20, 10⟩, ⟨30, 40, 30⟩]⟩ ∧
      tcpSackOption (fun _ => true) ⟨10, 60, 50, 50, [⟨10, 20, 10⟩, ⟨30, 40, 30⟩]⟩ 10
          [⟨32, 36⟩] =
        some ⟨10, 60, 50, 50, [⟨10, 20, 10⟩, ⟨30, 32, 30⟩, ⟨36, 40, 36⟩]⟩ ∧
      ∀ h ∈ [(⟨10, 20, 10⟩ : Sackhole), ⟨30, 32, 30⟩, ⟨36, 40, 36⟩], ∀ x,
        Covers 20 30 x ∨ Covers 32 36 x → ¬ Covers h.start h.stop x := by
  have fst : tcpSackOption (fun _ => true) ⟨10, 60, 10, 10, []⟩ 10 [⟨20, 30⟩, ⟨40, 50⟩] =
      some ⟨10, 60, 50, 50, [⟨10, 20, 10⟩, ⟨30, 40, 30⟩]⟩ := by decide
  have second : tcpSackOption (fun _ => true) ⟨10, 60, 50, 50, [⟨10, 20, 10⟩, ⟨30, 40, 30⟩]⟩ 10
      [⟨32, 36⟩] = some ⟨10, 60, 50, 50, [⟨10, 20, 10⟩, ⟨30, 32, 30⟩, ⟨36, 40, 36⟩]⟩ := by decide
  have beg : Reached ⟨10, 60, 10, 10, []⟩ fun _ => False :=
    .start ⟨by decide, ⟨.nil, nofun, nofun⟩, nofun, nofun, nofun⟩
  have left := @Reached.sack _ _ _ 10 [⟨20, 30⟩, ⟨40, 50⟩] beg (by decide) (by decide)
    ⟨⟨.nil, nofun⟩, fun s' isTurn => by
      obtain rfl : ⟨30, 30, [], [⟨10, 20, 10⟩]⟩ = s' := Except.ok.inj isTurn
      exact ⟨⟨.cons nofun .nil, nofun⟩, fun _ _ => trivial⟩⟩ fst
  have reached := @Reached.sack _ _ _ 10 [⟨32, 36⟩] left (by decide) (by decide)
    ⟨⟨by unfold Sackblk.Meets; decide, nofun⟩, fun _ _ => trivial⟩ second
  refine ⟨fst, second, fun h mem x covered => ?_⟩
  refine sacked_leaves_holes reached h mem x (covered.imp (fun old => ?_) fun new => ?_)
  · exact .inr ⟨⟨20, 30⟩, by simp, by decide, old⟩
  · exact ⟨⟨32, 36⟩, by simp, by decide, new⟩

/-- A block with bytes in two holes leaves the second as it is. -/
theorem second_hole_stays : ∃ tp tp',
    tcpSackOption (fun _ => true) ⟨10, 60, 10, 10, []⟩ 10 [⟨20, 30⟩, ⟨40, 50⟩] = some tp ∧
      tcpSackOption (fun _ => true) tp 10 [⟨15, 35⟩] = some tp' ∧ tp.accepts 10 ⟨15, 35⟩ ∧
      Covers 15 35 30 ∧ ∃ h ∈ tp'.snd_holes, Covers h.start h.stop 30 := by
  refine ⟨⟨10, 60, 50, 50, [⟨10, 20, 10⟩, ⟨30, 40, 30⟩]⟩,
    ⟨10, 60, 50, 50, [⟨10, 15, 10⟩, ⟨30, 40, 30⟩]⟩, ?_⟩
  simp only [Covers]
  decide

end Scoreboard

end NetBSD.Netinet
