import NetBSD.Arith.BitRange
import NetBSD.Kern.SysMqueue
import NetBSD.Machine.Priority
import NetBSD.Machine.Tally
import NetBSD.Machine.Trace

/-!
Owns what holds of a message queue under any interleaving of senders and
receivers. The messages are kept beside the queue in the order of their
insertion; each of the indexed lists is the lane of one priority, and the
reserved list holds the other lanes, sorted.
-/

namespace NetBSD.Kern.SysMqueue

open NetBSD.Arith NetBSD.Machine List

/-! ### Invariant -/

def queued (mq : Mqueue) : List MqMsg := (List.range (mqPqsize + 1)).flatMap mq.mq_head

/-- The lists and the bitmap hold these messages, given in order of insertion. -/
structure Stored (mq : Mqueue) (present : List MqMsg) : Prop where
  lanes : ∀ (idx : Nat), 1 ≤ idx → idx ≤ mqPqsize →
    mq.mq_head idx = lane MqMsg.msg_prio (mqPqsize - idx) present
  sorted : Descending MqMsg.msg_prio (mq.mq_head mqPqresq)
  reserved : ∀ (level : Nat), mqPqsize ≤ level →
    lane MqMsg.msg_prio level (mq.mq_head mqPqresq) = lane MqMsg.msg_prio level present
  high : ∀ msg ∈ mq.mq_head mqPqresq, mqPqsize ≤ msg.msg_prio
  marked : ∀ (idx : Nat), 1 ≤ idx → idx ≤ mqPqsize →
    (bitAt mq.mq_bitmap (idx - 1) = true ↔ mq.mq_head idx ≠ [])
  counted : (queued mq).length = present.length

/-- The queue counts its messages within its bound. -/
structure QueueOk (mq : Mqueue) (present : List MqMsg) : Prop where
  stored : Stored mq present
  curmsgs : mq.mq_attrib.mq_curmsgs = (queued mq).length
  bounded : mq.mq_attrib.mq_curmsgs ≤ mq.mq_attrib.mq_maxmsg

section Stored

variable {mq other : Mqueue} {present : List MqMsg}

theorem Stored.congr (kept : Stored mq present) (sameHead : other.mq_head = mq.mq_head)
    (sameBitmap : other.mq_bitmap = mq.mq_bitmap) : Stored other present := by
  obtain ⟨lanes, sort, reserved, high, marked, cnt⟩ := kept
  rw [queued] at cnt
  rw [← sameHead] at lanes sort reserved high marked cnt
  rw [← sameBitmap] at marked
  exact ⟨lanes, sort, reserved, high, marked, cnt⟩

theorem length_queued_setHead (mq : Mqueue) {idx : Nat} (lt : idx ≤ mqPqsize)
    (msgs : List MqMsg) : (queued (mq.setHead idx msgs)).length + (mq.mq_head idx).length =
      (queued mq).length + msgs.length := by
  have updated := @tally_update _ (fun _ => 1) mq.mq_head idx msgs _
    (nodup_range (n := mqPqsize + 1)) (mem_range.mpr (Nat.lt_succ_of_le lt))
  simpa only [tally_one, queued, Mqueue.setHead] using updated

@[simp] theorem setHead_self (idx : Nat) (msgs : List MqMsg) :
    (mq.setHead idx msgs).mq_head idx = msgs := Function.update_self ..

theorem setHead_of_ne {idx idx' : Nat} (diff : idx' ≠ idx) (msgs : List MqMsg) :
    (mq.setHead idx msgs).mq_head idx' = mq.mq_head idx' := Function.update_of_ne diff ..

variable {msg : MqMsg}

theorem Stored.mem_head (kept : Stored mq present) (isIn : msg ∈ present)
    (low : msg.msg_prio < mqPqsize) : msg ∈ mq.mq_head (mqPqsize - msg.msg_prio) := by
  rw [kept.lanes _ (by omega) (by omega), mem_lane]
  exact ⟨isIn, by omega⟩

theorem Stored.mem_reserved (kept : Stored mq present) (isIn : msg ∈ present)
    (hi : mqPqsize ≤ msg.msg_prio) : msg ∈ mq.mq_head mqPqresq := by
  have inLane : msg ∈ lane MqMsg.msg_prio msg.msg_prio present := mem_lane.mpr ⟨isIn, rfl⟩
  rw [← kept.reserved _ hi] at inLane
  exact (mem_lane.mp inLane).1

/-! ### Insertion -/

theorem mqueueLinearInsert_eq (msg : MqMsg) (msgs : List MqMsg) :
    mqueueLinearInsert msg msgs = insertByPriority MqMsg.msg_prio msg msgs := by
  induction msgs with
  | nil => rfl
  | cons mit tl ih =>
    rw [mqueueLinearInsert, insertByPriority, ih]

theorem Stored.insertReserved (kept : Stored mq present) (hi : mqPqsize ≤ msg.msg_prio) :
    Stored (mq.setHead mqPqresq (mqueueLinearInsert msg (mq.mq_head mqPqresq))) (present ++ [msg]) := by
  have index : mqPqresq = 0 := rfl
  rw [mqueueLinearInsert_eq]
  exact {
    lanes := by
      intro idx pos lt
      have notOwn : msg.msg_prio ≠ mqPqsize - idx := by omega
      rw [setHead_of_ne (by omega), kept.lanes idx pos lt, lane_append,
        lane_cons_of_ne notOwn, lane_nil, append_nil]
    sorted := by
      rw [setHead_self]
      exact kept.sorted.insert msg
    reserved := by
      intro lvl isLevel
      rw [setHead_self, lane_insert kept.sorted, lane_append, lane_append,
        kept.reserved lvl isLevel]
    high := by
      intro other isIn
      rw [setHead_self, mem_insertByPriority] at isIn
      rcases isIn with rfl | old
      · exact hi
      · exact kept.high other old
    marked := by
      intro idx pos lt
      rw [setHead_of_ne (by omega)]
      exact kept.marked idx pos lt
    counted := by
      have total := @length_queued_setHead mq mqPqresq (by omega)
        (insertByPriority MqMsg.msg_prio msg (mq.mq_head mqPqresq))
      have counted := kept.counted
      rw [length_insertByPriority] at total
      rw [length_append, length_singleton]
      omega }

/-- A message of an indexed priority goes to the end of its list, and its bit
is set. -/
theorem Stored.insertIndexed (kept : Stored mq present) (isLow : msg.msg_prio < mqPqsize) :
    Stored { mq.setHead (mqPqsize - msg.msg_prio)
        (mq.mq_head (mqPqsize - msg.msg_prio) ++ [msg]) with
      mq_bitmap := mq.mq_bitmap ||| bitMask (mqPqsize - msg.msg_prio - 1) } (present ++ [msg]) := by
  have size : mqPqsize = 32 := rfl
  have index : mqPqresq = 0 := rfl
  obtain ⟨own, ownEq⟩ : ∃ own, own = mqPqsize - msg.msg_prio := ⟨_, rfl⟩
  rw [← ownEq]
  have notReserved : mqPqresq ≠ own := by omega
  have atReserved := @setHead_of_ne mq _ _ notReserved (mq.mq_head own ++ [msg])
  exact {
    lanes := by
      intro idx pos lt
      by_cases same : idx = own
      · rw [same, setHead_self, kept.lanes own (by omega) (by omega), lane_append,
          lane_cons_of_eq (by omega : msg.msg_prio = mqPqsize - own), lane_nil]
      · rw [setHead_of_ne same, kept.lanes idx pos lt, lane_append,
          lane_cons_of_ne (by omega : msg.msg_prio ≠ mqPqsize - idx), lane_nil, append_nil]
    sorted := by
      rw [atReserved]
      exact kept.sorted
    reserved := by
      intro lvl isLevel
      rw [atReserved, kept.reserved lvl isLevel, lane_append,
        lane_cons_of_ne (by omega : msg.msg_prio ≠ lvl), lane_nil, append_nil]
    high := by
      intro other isIn
      rw [atReserved] at isIn
      exact kept.high other isIn
    marked := by
      intro idx pos lt
      rw [bitAt_set _ (by omega : own - 1 < 32)]
      by_cases same : idx = own
      · rw [same]
        simp
      · have differ : idx - 1 ≠ own - 1 := by omega
        rw [setHead_of_ne same, decide_eq_false differ, Bool.or_false]
        exact kept.marked idx pos lt
    counted := by
      have total := @length_queued_setHead mq own (by omega) (mq.mq_head own ++ [msg])
      have counted := kept.counted
      rw [length_append] at total ⊢
      change (queued (mq.setHead own (mq.mq_head own ++ [msg]))).length = _
      omega }

theorem Stored.insert (kept : Stored mq present) (msg : MqMsg) :
    ∃ s', mq.insert msg = some s' ∧ s'.mq_attrib = mq.mq_attrib ∧
      Stored s' (present ++ [msg]) := by
  have index : mqPqresq = 0 := rfl
  unfold Mqueue.insert
  by_cases isLow : msg.msg_prio < mqPqsize
  · rw [if_pos isLow]
    have notReserved : mqPqsize - msg.msg_prio ≠ mqPqresq := by omega
    simp only [if_neg notReserved]
    exact ⟨_, rfl, rfl, kept.insertIndexed isLow⟩
  · rw [if_neg isLow]
    exact ⟨_, rfl, rfl, kept.insertReserved (not_lt.mp isLow)⟩

/-! ### Removal -/

/-- The reserved queue gives out its oldest message first. -/
theorem Stored.removeReserved (kept : Stored mq present) {tl : List MqMsg}
    (hd : mq.mq_head mqPqresq = msg :: tl) :
    ∃ pre back, present = pre ++ msg :: back ∧ OldestHighest MqMsg.msg_prio msg pre back ∧
      Stored (mq.setHead mqPqresq tl) (pre ++ back) := by
  have index : mqPqresq = 0 := rfl
  have hi : mqPqsize ≤ msg.msg_prio := kept.high msg (by rw [hd]; exact mem_cons_self)
  have own := kept.reserved msg.msg_prio hi
  have sorted := kept.sorted
  rw [hd] at own sorted
  rw [lane_cons_of_eq rfl] at own
  obtain ⟨pre, back, split, notFront, -, restEq⟩ := exists_split_of_lane own
  have le : ∀ other ∈ present, other.msg_prio ≤ msg.msg_prio := by
    intro other isIn
    by_cases otherHigh : mqPqsize ≤ other.msg_prio
    · have mem := kept.mem_reserved isIn otherHigh
      rw [hd] at mem
      rcases mem_cons.mp mem with rfl | later
      · exact le_refl _
      · exact (pairwise_cons.mp sorted).1 other later
    · omega
  refine ⟨pre, back, split, .of_le notFront rfl fun other isIn => le other (split ▸ isIn), ?_⟩
  · exact {
      lanes := by
        intro idx pos lt
        rw [setHead_of_ne (by omega), kept.lanes idx pos lt, split]
        exact lane_remove rfl (by omega)
      sorted := by
        exact (pairwise_cons.mp sorted).2
      reserved := by
        intro lvl isLevel
        rw [setHead_self]
        by_cases same : lvl = msg.msg_prio
        · rw [same, lane_removed notFront, restEq]
        · have old := kept.reserved lvl isLevel
          rw [hd, lane_cons_of_ne (Ne.symm same), split, lane_remove rfl (Ne.symm same)] at old
          exact old
      high := by
        intro other isIn
        exact kept.high other (by rw [hd]; exact mem_cons_of_mem _ isIn)
      marked := by
        intro idx pos lt
        rw [setHead_of_ne (by omega)]
        exact kept.marked idx pos lt
      counted := by
        have total := @length_queued_setHead mq mqPqresq (by omega) tl
        have counted := kept.counted
        rw [hd, length_cons] at total
        rw [split, length_append, length_cons] at counted
        rw [length_append]
        omega }

theorem ffs32_spec {word : UInt32} {i : Nat} (lt : i < 32) (isSet : bitAt word i = true) :
    1 ≤ ffs32 word ∧ ffs32 word ≤ 32 ∧ bitAt word (ffs32 word - 1) = true ∧
      ∀ j, bitAt word j = true → ffs32 word ≤ j + 1 := by
  unfold ffs32
  cases found : (List.range 32).find? (bitAt word) with
  | none =>
    have missed := find?_eq_none.mp found i (mem_range.mpr lt)
    exact absurd isSet missed
  | some pos =>
    have positionInside := mem_range.mp (mem_of_find?_eq_some found)
    have positionSet := find?_some found
    refine ⟨Nat.succ_pos _, positionInside, positionSet, ?_⟩
    intro j jSet
    change pos + 1 ≤ j + 1
    by_contra below
    have old : j < pos := by omega
    have missed := (find?_range_eq_some.mp found).2.2 j old
    rw [jSet] at missed
    cases missed

/-- The lowest bit set names the highest priority stored. -/
theorem Stored.removeIndexed (kept : Stored mq present) {tl : List MqMsg}
    (noReserved : mq.mq_head mqPqresq = []) {idx : Nat} (pos : 1 ≤ idx)
    (lt : idx ≤ mqPqsize) (lowest : ∀ j, bitAt mq.mq_bitmap j = true → idx ≤ j + 1)
    (hd : mq.mq_head idx = msg :: tl) :
    mqPqsize - idx = msg.msg_prio ∧ ∃ pre back, present = pre ++ msg :: back ∧
      OldestHighest MqMsg.msg_prio msg pre back ∧
      ∀ bitmap : UInt32, (∀ (i : Nat), 1 ≤ i → i ≤ mqPqsize →
          (bitAt bitmap (i - 1) = true ↔ (mq.setHead idx tl).mq_head i ≠ [])) →
        Stored { mq.setHead idx tl with mq_bitmap := bitmap } (pre ++ back) := by
  have index : mqPqresq = 0 := rfl
  have own := kept.lanes idx pos lt
  rw [hd] at own
  obtain ⟨pre, back, split, notFront, isPrio, restEq⟩ := exists_split_of_lane own
  have le : ∀ other ∈ present, other.msg_prio ≤ msg.msg_prio := by
    intro other isIn
    have low : other.msg_prio < mqPqsize := by
      by_contra high
      have mem := kept.mem_reserved isIn (not_lt.mp high)
      rw [noReserved] at mem
      cases mem
    have mem := kept.mem_head isIn low
    have isSet := (kept.marked (mqPqsize - other.msg_prio) (by omega) (by omega)).mpr
      (ne_nil_of_mem mem)
    have above := lowest _ isSet
    omega
  refine ⟨isPrio.symm, pre, back, split,
    .of_le notFront isPrio fun other isIn => le other (split ▸ isIn), ?_⟩
  · intro bitmap marked
    have atReserved : (mq.setHead idx tl).mq_head mqPqresq = [] := by
      rw [setHead_of_ne (by omega), noReserved]
    exact {
      lanes := by
        intro i iPositive iInside
        by_cases same : i = idx
        · rw [same, setHead_self, lane_removed notFront, restEq]
        · rw [setHead_of_ne same, kept.lanes i iPositive iInside, split]
          exact lane_remove isPrio (by omega)
      sorted := by
        rw [atReserved]
        exact List.Pairwise.nil
      reserved := by
        intro lvl isLevel
        have old := kept.reserved lvl isLevel
        rw [noReserved, split, lane_remove isPrio (by omega)] at old
        rw [atReserved, old]
      high := by
        intro other isIn
        rw [atReserved] at isIn
        cases isIn
      marked := marked
      counted := by
        have total := length_queued_setHead mq lt tl
        have counted := kept.counted
        rw [hd, length_cons] at total
        rw [split, length_append, length_cons] at counted
        change (queued (mq.setHead idx tl)).length = _
        rw [length_append]
        omega }

/-- Both `KASSERT`s of the removal hold, and the message is the oldest one of
the highest priority. -/
theorem Stored.remove (kept : Stored mq present) (ne : present ≠ []) :
    ∃ s' msg pre back, mq.remove = some (s', msg) ∧ s'.mq_attrib = mq.mq_attrib ∧
      present = pre ++ msg :: back ∧ OldestHighest MqMsg.msg_prio msg pre back ∧
      Stored s' (pre ++ back) := by
  have size : mqPqsize = 32 := rfl
  unfold Mqueue.remove
  cases isHead : mq.mq_head mqPqresq with
  | cons msg tl =>
    obtain ⟨pre, back, split, oldest, s'⟩ := kept.removeReserved isHead
    exact ⟨_, msg, pre, back, rfl, rfl, split, oldest, s'⟩
  | nil =>
    obtain ⟨first, oths, rfl⟩ := exists_cons_of_ne_nil ne
    have low : first.msg_prio < mqPqsize := by
      by_contra high
      have mem := kept.mem_reserved mem_cons_self (not_lt.mp high)
      rw [isHead] at mem
      cases mem
    have isSet := (kept.marked (mqPqsize - first.msg_prio) (by omega) (by omega)).mpr
      (ne_nil_of_mem (kept.mem_head mem_cons_self low))
    obtain ⟨pos, lt, fnd, lowest⟩ := ffs32_spec (by omega) isSet
    have full := (kept.marked _ pos lt).mp fnd
    obtain ⟨msg, tl, fst⟩ := exists_cons_of_ne_nil full
    obtain ⟨isPrio, pre, back, split, oldest, rebuild⟩ :=
      kept.removeIndexed isHead pos lt lowest fst
    have nz : ffs32 mq.mq_bitmap ≠ 0 := by omega
    simp only [fst, setHead_self]
    by_cases emptied : tl = []
    · rw [if_pos ⟨nz, emptied⟩, if_pos isPrio]
      refine ⟨_, msg, pre, back, rfl, rfl, split, oldest, rebuild _ ?_⟩
      intro i iPositive iInside
      rw [bitAt_clear _ (by omega : ffs32 mq.mq_bitmap - 1 < 32) (by omega)]
      by_cases same : i = ffs32 mq.mq_bitmap
      · rw [same, setHead_self]
        simp [emptied]
      · have differ : i - 1 ≠ ffs32 mq.mq_bitmap - 1 := by omega
        rw [setHead_of_ne same, decide_eq_false differ, Bool.not_false, Bool.and_true]
        exact kept.marked i iPositive iInside
    · rw [if_neg fun both => emptied both.2]
      refine ⟨_, msg, pre, back, rfl, rfl, split, oldest, rebuild _ ?_⟩
      intro i iPositive iInside
      by_cases same : i = ffs32 mq.mq_bitmap
      · rw [same, setHead_self]
        exact iff_of_true fnd emptied
      · rw [setHead_of_ne same]
        exact kept.marked i iPositive iInside

end Stored

/-! ### Critical sections -/

/-- The messages in order of insertion after a critical section. A removal takes
the first one of the priority that was received. -/
def record (present : List MqMsg) : Answer → List MqMsg
  | .sent msg _ => present ++ [msg]
  | .received msg => present.eraseP fun other => decide (other.msg_prio = msg.msg_prio)
  | _ => present

def TakesOldestHighest (present : List MqMsg) (answer : Answer) : Prop :=
  ∀ msg, answer = .received msg → ∃ front back, present = front ++ msg :: back ∧
    OldestHighest MqMsg.msg_prio msg front back ∧ record present answer = front ++ back

section Section

variable {mq : Mqueue} {present : List MqMsg}

/-- A critical section that keeps the invariant and receives as it should. -/
def Kept (present : List MqMsg) (ended : Option (Mqueue × Answer)) : Prop :=
  ∃ after answer, ended = some (after, answer) ∧ QueueOk after (record present answer) ∧
    TakesOldestHighest present answer

theorem QueueOk.length (ok : QueueOk mq present) : mq.mq_attrib.mq_curmsgs = present.length :=
  ok.curmsgs.trans ok.stored.counted

theorem QueueOk.congr (ok : QueueOk mq present) (other : Mqueue)
    (sameHead : other.mq_head = mq.mq_head) (sameBitmap : other.mq_bitmap = mq.mq_bitmap)
    (sameCurmsgs : other.mq_attrib.mq_curmsgs = mq.mq_attrib.mq_curmsgs)
    (sameMaxmsg : other.mq_attrib.mq_maxmsg = mq.mq_attrib.mq_maxmsg) : QueueOk other present where
  stored := ok.stored.congr sameHead sameBitmap
  curmsgs := by
    rw [sameCurmsgs, ok.curmsgs, queued, queued, sameHead]
  bounded := by
    rw [sameCurmsgs, sameMaxmsg]
    exact ok.bounded

theorem QueueOk.kept (ok : QueueOk mq present) {ans : Answer}
    (same : record present ans = present) (notReceived : ∀ msg, ans ≠ .received msg) :
    Kept present (some (mq, ans)) :=
  ⟨mq, ans, rfl, by rw [same]; exact ok, fun msg isReceived => absurd isReceived (notReceived msg)⟩

theorem takeNotify_fst (mq : Mqueue) : mq.takeNotify.1.mq_head = mq.mq_head ∧
    mq.takeNotify.1.mq_bitmap = mq.mq_bitmap ∧ mq.takeNotify.1.mq_attrib = mq.mq_attrib := by
  unfold Mqueue.takeNotify
  cases mq.mq_notify_proc with
  | none => exact ⟨rfl, rfl, rfl⟩
  | some proc =>
    simp only
    split <;> exact ⟨rfl, rfl, rfl⟩

section

variable (ok : QueueOk mq present)

include ok

theorem QueueOk.sendLoop (msg : MqMsg) (timo : Option Errno) :
    Kept present (mq.sendLoop msg timo) := by
  unfold Mqueue.sendLoop
  by_cases full : mq.mq_attrib.mq_maxmsg ≤ mq.mq_attrib.mq_curmsgs
  · rw [if_pos full]
    by_cases nonblock : mq.mq_attrib.nonblock = true
    · rw [if_pos nonblock]
      exact ok.kept rfl nofun
    · rw [if_neg nonblock]
      cases timo with
      | some | none => exact ok.kept rfl nofun
  rw [if_neg full]
  obtain ⟨s', insd, sameAttrib, kept⟩ := ok.stored.insert msg
  obtain ⟨sameHead, sameBitmap, notifyAttrib⟩ := takeNotify_fst s'
  have len := ok.length
  rw [insd]
  refine ⟨s'.takeNotify.1.setCurmsgs (s'.takeNotify.1.mq_attrib.mq_curmsgs + 1),
    .sent msg s'.takeNotify.2, rfl, ?_, nofun⟩
  generalize s'.takeNotify.1 = told at sameHead sameBitmap notifyAttrib ⊢
  have curmsgs : told.mq_attrib.mq_curmsgs = present.length := by
    rw [notifyAttrib, sameAttrib, len]
  have maxmsg : told.mq_attrib.mq_maxmsg = mq.mq_attrib.mq_maxmsg := by
    rw [notifyAttrib, sameAttrib]
  have cnt := kept.counted
  rw [queued, ← sameHead] at cnt
  refine ⟨kept.congr sameHead sameBitmap, ?_, ?_⟩
  · change told.mq_attrib.mq_curmsgs + 1 = (queued told).length
    rw [curmsgs, queued, cnt, length_append, length_singleton]
  · change told.mq_attrib.mq_curmsgs + 1 ≤ told.mq_attrib.mq_maxmsg
    omega

/-- The receive loop removes one message or leaves the queue alone. -/
theorem QueueOk.recvLoop (timo : Option Errno) : Kept present (mq.recvLoop timo) := by
  have len := ok.length
  unfold Mqueue.recvLoop
  by_cases empty : mq.mq_attrib.mq_curmsgs = 0
  · rw [if_pos empty]
    by_cases nonblock : mq.mq_attrib.nonblock = true
    · rw [if_pos nonblock]
      exact ok.kept rfl nofun
    · rw [if_neg nonblock]
      cases timo with
      | some error => exact ok.kept rfl nofun
      | none =>
        exact (ok.congr (mq.setReceive true) rfl rfl rfl rfl).kept rfl nofun
  rw [if_neg empty]
  have ne : present ≠ [] := by
    intro nil
    rw [nil] at len
    exact empty len
  obtain ⟨s', msg, pre, back, gone, sameAttrib, split, oldest, kept⟩ :=
    ok.stored.remove ne
  have erased : record present (.received msg) = pre ++ back := by
    have notFront : ∀ other ∈ pre, ¬ decide (other.msg_prio = msg.msg_prio) = true := by
      intro other isIn
      have less := oldest.older other isIn
      rw [decide_eq_true_eq]
      omega
    rw [record, split, eraseP_append_right _ notFront, eraseP_cons_of_pos (by simp)]
  rw [gone]
  refine ⟨_, _, rfl, ⟨?_, ?_, ?_⟩, ?_⟩
  · rw [erased]
    exact kept.congr rfl rfl
  · have cnt := kept.counted
    simp only [Mqueue.setCurmsgs, Mqueue.setAttrib, queued, sameAttrib]
    rw [queued] at cnt
    rw [cnt, len, split, length_append, length_append, length_cons]
    omega
  · have bnd := ok.bounded
    simp only [Mqueue.setCurmsgs, Mqueue.setAttrib, sameAttrib]
    omega
  · intro msg' isReceived
    obtain rfl := Answer.received.inj isReceived
    exact ⟨pre, back, split, oldest, erased⟩

theorem QueueOk.send1 (limits : MqLimits) (msg : MqMsg) (timo : Option Errno) :
    Kept present (mqSend1 limits mq msg timo) := by
  simp only [mqSend1]
  by_cases badPrio : limits.mq_prio_max ≤ msg.msg_prio
  · rw [if_pos badPrio]
    exact ok.kept rfl nofun
  rw [if_neg badPrio]
  by_cases tooLong : limits.mq_max_msgsize < (limits.sizeof_msg + msg.msg_ptr.length) % 2 ^ 64
  · rw [if_pos tooLong]
    exact ok.kept rfl nofun
  rw [if_neg tooLong]
  by_cases badSize : msg.msg_ptr.length = 0 ∨ mq.mq_attrib.mq_msgsize < msg.msg_ptr.length
  · rw [if_pos badSize]
    exact ok.kept rfl nofun
  · rw [if_neg badSize]
    exact ok.sendLoop msg timo

theorem QueueOk.recv1 (msgLen : Nat) (timo : Option Errno) :
    Kept present (mqRecv1 mq msgLen timo) := by
  unfold mqRecv1
  by_cases short : msgLen < mq.mq_attrib.mq_msgsize
  · rw [if_pos short]
    exact ok.kept rfl nofun
  · rw [if_neg short]
    exact ok.recvLoop timo

theorem QueueOk.sendWake (msg : MqMsg) (wake : Wake) (timo : Option Errno) :
    Kept present (mq.sendWake msg wake timo) := by
  unfold Mqueue.sendWake
  cases wake with
  | ewouldblock | eintr | erestart => exact ok.kept rfl nofun
  | signalled =>
    by_cases unl : mq.mq_attrib.unlinked = true
    · simp only [if_pos unl]
      exact ok.kept rfl nofun
    · simp only [if_neg unl]
      exact ok.sendLoop msg timo

theorem QueueOk.recvWake (wake : Wake) (timo : Option Errno) :
    Kept present (mq.recvWake wake timo) := by
  have awake : QueueOk (mq.setReceive false) present := ok.congr _ rfl rfl rfl rfl
  simp only [Mqueue.recvWake]
  by_cases bad : wake ≠ .signalled ∨ (mq.setReceive false).mq_attrib.unlinked = true
  · rw [if_pos bad]
    exact awake.kept rfl nofun
  · rw [if_neg bad]
    exact awake.recvLoop timo

theorem QueueOk.notify (proc : Nat) (sig : Option Sigevent) :
    Kept present (some (sysMqNotify mq proc sig)) := by
  unfold sysMqNotify
  cases sig with
  | none => exact (ok.congr { mq with mq_notify_proc := none } rfl rfl rfl rfl).kept rfl nofun
  | some sig =>
    cases registered : mq.mq_notify_proc with
    | some other => exact ok.kept rfl nofun
    | none =>
      exact (ok.congr { mq with mq_sig_notify := sig, mq_notify_proc := some proc }
        rfl rfl rfl rfl).kept rfl nofun

end

end Section

/-! ### Runs -/

theorem finish_kept {present : List MqMsg} {ended : Option (Mqueue × Answer)}
    (kept : Kept present ended) (sys : MqSystem) (td : Nat) (slp : Sleeper) :
    ∃ s' ans, sys.finish td slp ended = some (s', ans) ∧
      QueueOk s'.mq (record present ans) ∧ TakesOldestHighest present ans := by
  obtain ⟨s', ans, rfl, ok, takes⟩ := kept
  exact ⟨_, ans, rfl, ok, takes⟩

theorem step_kept {present : List MqMsg} {sys : MqSystem} (ok : QueueOk sys.mq present)
    (limits : MqLimits) (action : Action) :
    ∃ s' ans, sys.step limits action = some (s', ans) ∧
      QueueOk s'.mq (record present ans) ∧ TakesOldestHighest present ans := by
  cases action with
  | send td msg timo =>
    simp only [MqSystem.step]
    cases sys.sleepers td with
    | some _ => exact ⟨sys, .done, rfl, ok, nofun⟩
    | none => exact finish_kept (ok.send1 limits msg timo) sys td _
  | recv td msgLen timo =>
    simp only [MqSystem.step]
    cases sys.sleepers td with
    | some _ => exact ⟨sys, .done, rfl, ok, nofun⟩
    | none => exact finish_kept (ok.recv1 msgLen timo) sys td _
  | wakeup td wake timo =>
    simp only [MqSystem.step]
    cases sys.sleepers td with
    | none => exact ⟨sys, .done, rfl, ok, nofun⟩
    | some slp =>
      cases slp with
      | sending msg => exact finish_kept (ok.sendWake msg wake timo) sys td _
      | receiving => exact finish_kept (ok.recvWake wake timo) sys td _
  | notify proc sig =>
    obtain ⟨s', ans, same, kept, takes⟩ := ok.notify proc sig
    obtain ⟨rfl, rfl⟩ := Prod.mk.inj (Option.some.inj same)
    exact ⟨_, _, rfl, kept, takes⟩
  | setattr nonblock =>
    exact ⟨_, .done, rfl, ok.congr (sysMqSetattr sys.mq nonblock) rfl rfl rfl rfl, nofun⟩
  | unlink =>
    exact ⟨_, .done, rfl, ok.congr sys.mq.markUnlinked rfl rfl rfl rfl, nofun⟩

theorem queueOk_new (name : List UInt8) (attrib : MqAttr) (mode : UInt32) (euid egid : Nat) :
    QueueOk (newMqueue name { attrib with mq_curmsgs := 0 } mode euid egid) [] := by
  have no : queued (newMqueue name { attrib with mq_curmsgs := 0 } mode euid egid) = [] := by
    simp [queued, newMqueue]
  refine ⟨⟨fun _ _ _ => rfl, List.Pairwise.nil, fun _ _ => rfl, ?_, ?_, ?_⟩, ?_, Nat.zero_le _⟩
  · intro msg isIn
    cases isIn
  · intro idx pos lt
    simp [newMqueue, bitAt_zero]
  · rw [no]
  · rw [no]
    rfl

/-- The checks that `mq_send1` makes of a message. -/
structure Mqueue.Admits (mq : Mqueue) (limits : MqLimits) (msg : MqMsg) : Prop where
  priority : msg.msg_prio < limits.mq_prio_max
  allowed : (limits.sizeof_msg + msg.msg_ptr.length) % 2 ^ 64 ≤ limits.mq_max_msgsize
  filled : msg.msg_ptr.length ≠ 0
  fits : msg.msg_ptr.length ≤ mq.mq_attrib.mq_msgsize

/-- A message that passes the checks, or whose sender was woken, is queued when there is room; and
from a queue with messages a reader whose buffer is large enough, or that was woken, gets one. -/
def Serves (limits : MqLimits) (system : MqSystem) (present : List MqMsg) (answer : Answer) :
    Action → Prop
  | .send thread msg _ => system.sleepers thread = none → system.mq.Admits limits msg →
    present.length < system.mq.mq_attrib.mq_maxmsg → ∃ notify, answer = .sent msg notify
  | .recv thread msgLen _ => system.sleepers thread = none →
    system.mq.mq_attrib.mq_msgsize ≤ msgLen → present ≠ [] → ∃ msg, answer = .received msg
  | .wakeup thread .signalled _ => system.mq.mq_attrib.unlinked = false →
    (∀ msg, system.sleepers thread = some (.sending msg) →
      present.length < system.mq.mq_attrib.mq_maxmsg → ∃ notify, answer = .sent msg notify) ∧
    (system.sleepers thread = some .receiving → present ≠ [] → ∃ msg, answer = .received msg)
  | _ => True

section Serves

variable {mq s' : Mqueue} {present : List MqMsg} {answer : Answer} {timo : Option Errno}

theorem QueueOk.sendLoop_sent (ok : QueueOk mq present) {msg : MqMsg}
    (rm : present.length < mq.mq_attrib.mq_maxmsg)
    (ended : mq.sendLoop msg timo = some (s', answer)) : ∃ notify, answer = .sent msg notify := by
  have len := ok.length
  unfold Mqueue.sendLoop at ended
  rw [if_neg (by omega)] at ended
  obtain ⟨_, _, isAnswer⟩ := Option.map_eq_some_iff.mp ended
  exact ⟨_, (Prod.mk.inj isAnswer).2.symm⟩

theorem QueueOk.recvLoop_received (ok : QueueOk mq present) (ne : present ≠ [])
    (ended : mq.recvLoop timo = some (s', answer)) : ∃ msg, answer = .received msg := by
  have len := ok.length
  have pos := length_pos_iff.mpr ne
  unfold Mqueue.recvLoop at ended
  rw [if_neg (by omega)] at ended
  obtain ⟨_, _, isAnswer⟩ := Option.map_eq_some_iff.mp ended
  exact ⟨_, (Prod.mk.inj isAnswer).2.symm⟩

theorem finish_ended {sys hr : MqSystem} {td : Nat} {slp : Sleeper}
    {ended : Option (Mqueue × Answer)} (moved : sys.finish td slp ended = some (hr, answer)) :
    ∃ s', ended = some (s', answer) := by
  obtain ⟨⟨s', ans⟩, isEnded, isAnswer⟩ := Option.map_eq_some_iff.mp moved
  obtain ⟨-, rfl⟩ := Prod.mk.inj isAnswer
  exact ⟨s', isEnded⟩

/-- One call sends, receives or refuses as the queue stands. -/
theorem step_serves {sys hr : MqSystem} (ok : QueueOk sys.mq present) {limits : MqLimits}
    {action : Action} (moved : sys.step limits action = some (hr, answer)) :
    Serves limits sys present answer action := by
  cases action with
  | send td msg timo =>
    rintro awake ⟨priority, allowed, filled, fits⟩ rm
    simp only [MqSystem.step, awake] at moved
    obtain ⟨s', ended⟩ := finish_ended moved
    simp only [mqSend1] at ended
    rw [if_neg (by omega), if_neg (by omega), if_neg (by omega)] at ended
    exact ok.sendLoop_sent rm ended
  | recv td msgLen timo =>
    intro awake large ne
    simp only [MqSystem.step, awake] at moved
    obtain ⟨s', ended⟩ := finish_ended moved
    rw [mqRecv1, if_neg (by omega)] at ended
    exact ok.recvLoop_received ne ended
  | wakeup td wake timo =>
    cases wake with
    | ewouldblock | eintr | erestart => trivial
    | signalled =>
      refine fun linked => ⟨fun msg asleep rm => ?_, fun asleep ne => ?_⟩
      · simp only [MqSystem.step, asleep] at moved
        obtain ⟨s', ended⟩ := finish_ended moved
        simp only [Mqueue.sendWake, linked, Bool.false_eq_true, if_false] at ended
        exact ok.sendLoop_sent rm ended
      · simp only [MqSystem.step, asleep] at moved
        obtain ⟨s', ended⟩ := finish_ended moved
        have awake : QueueOk (sys.mq.setReceive false) present := ok.congr _ rfl rfl rfl rfl
        rw [Mqueue.recvWake, if_neg (by
          rintro (bad | bad)
          · exact bad rfl
          · exact absurd (linked.symm.trans bad) Bool.false_ne_true)] at ended
        exact awake.recvLoop_received ne ended
  | notify | setattr | unlink => trivial

end Serves

/-- A step beside the messages in order of insertion. -/
def ledgerStep (limits : MqLimits) (state : MqSystem × List MqMsg) (action : Action) :
    Option (MqSystem × List MqMsg) :=
  (state.1.step limits action).map fun (after, answer) => (after, record state.2 answer)

/-- Whatever critical sections have run on a new queue, no `KASSERT` fails, the queue holds the
messages of the record in the right lists and counts, and the next one takes the oldest message of
the highest priority when it receives, and sends or receives when it can. -/
theorem mqueue_priorityQueue (limits : MqLimits) (name : List UInt8) (attrib : MqAttr)
    (mode : UInt32) (euid egid : Nat) (actions : List Action) :
    ∃ reached, consume (ledgerStep limits) actions
        (⟨newMqueue name { attrib with mq_curmsgs := 0 } mode euid egid, fun _ => none⟩, []) =
        some reached ∧
      QueueOk reached.1.mq reached.2 ∧
      ∀ action, ∃ s' answer, reached.1.step limits action = some (s', answer) ∧
        TakesOldestHighest reached.2 answer ∧ Serves limits reached.1 reached.2 answer action := by
  have fresh : QueueOk (newMqueue name { attrib with mq_curmsgs := 0 } mode euid egid) [] :=
    queueOk_new name attrib mode euid egid
  obtain ⟨reached, eaten, ok⟩ := @consume_invariant _ _ (ledgerStep limits)
    (fun st => QueueOk st.1.mq st.2) (fun _ _ => True)
    (by
      intro st action ok _
      obtain ⟨s', answer, moved, kept, _⟩ := step_kept ok limits action
      exact ⟨_, by rw [ledgerStep, moved, Option.map_some], kept⟩)
    actions (⟨newMqueue name { attrib with mq_curmsgs := 0 } mode euid egid, fun _ => none⟩, [])
    fresh (fun _ _ _ _ _ => trivial)
  refine ⟨reached, eaten, ok, ?_⟩
  intro action
  obtain ⟨s', answer, moved, _, takes⟩ := step_kept ok limits action
  exact ⟨s', answer, moved, takes, step_serves ok moved⟩

end NetBSD.Kern.SysMqueue
