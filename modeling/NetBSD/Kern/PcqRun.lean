import NetBSD.Kern.Pcq
import NetBSD.Machine.Ring

/-!
Owns what holds in every state of the producer/consumer queue. The `k`th
reservation owns slot `k % nitems` from its compare-and-swap until the consumer
publishes its advance, and at most `nitems - 1` reservations are open at a time,
so no two of them own one slot. A slot is empty before its producer's store and
after the consumer's.
-/

namespace NetBSD.Kern.SubrPcq

open NetBSD.Machine Function List Option Nat Ticket

/-! ### Indices -/

theorem toNat_pcqCombine {p c : Nat} (pSmall : p < 65536) (cSmall : c < 65536) :
    (pcqCombine p c).toNat = c * 65536 + p := by
  have left : (UInt32.ofNat c <<< 16).toNat = c <<< 16 := by
    rw [UInt32.toNat_shiftLeft, UInt32.toNat_ofNat']
    have shift : (16 : UInt32).toNat % 32 = 16 := rfl
    rw [shift, mod_eq_of_lt (by omega : c < 2 ^ 32)]
    exact mod_eq_of_lt (by omega)
  rw [pcqCombine, UInt32.toNat_or, left, UInt32.toNat_ofNat',
    mod_eq_of_lt (by omega : p < 2 ^ 32), Nat.or_comm,
    ← shiftLeft_add_eq_or_of_lt (by omega : p < 2 ^ 16), shiftLeft_eq]

theorem pcqSplit_pcqCombine {p c : Nat} (pSmall : p < 65536) (cSmall : c < 65536) :
    pcqSplit (pcqCombine p c) = (p, c) := by
  have v := toNat_pcqCombine pSmall cSmall
  have low : (pcqCombine p c &&& 0xffff).toNat = p := by
    have mask : (0xffff : UInt32).toNat = 2 ^ 16 - 1 := rfl
    rw [UInt32.toNat_and, mask, and_two_pow_sub_one_eq_mod]
    omega
  have high : (pcqCombine p c >>> 16).toNat = c := by
    have shift : (16 : UInt32).toNat % 32 = 16 := rfl
    rw [UInt32.toNat_shiftRight, shift]
    omega
  rw [pcqSplit, low, high]

theorem pcqAdvance_mod {n : Nat} (pos : 0 < n) (k : Nat) :
    pcqAdvance n (k % n) = (k + 1) % n := by
  have below := mod_lt k pos
  have next : (k + 1) % n = (k % n + 1) % n := (mod_add_mod k n 1).symm
  rw [pcqAdvance, next]
  by_cases wraps : k % n + 1 = n
  · rw [if_pos wraps, wraps, mod_self]
  · have sml : k % n + 1 < n := by omega
    rw [if_neg wraps, mod_eq_of_lt sml]

/-! ### Invariant -/

section Invariant

variable {α : Type}

/-- The consumer has emptied the slot of the oldest ticket. -/
def Consumer.hasCleared : Consumer α → Bool
  | .cleared _ _ _ => true
  | .reloading _ => true
  | _ => false

/-- What slot `k % nitems` holds for ticket `k`. -/
def content (consumer : Consumer α) (ledger : Ledger α) (k : Nat) : Option α :=
  match ledger.tickets[k]? with
  | none => none
  | some ticket =>
    if ticket.filled = true ∧ ¬ (k = ledger.returned.length ∧ consumer.hasCleared = true) then
      some ticket.item
    else none

/-- The oldest ticket that has not been returned is filled with this item. -/
def Ledger.Oldest (ledger : Ledger α) (item : α) : Prop :=
  ∃ ticket, ledger.tickets[ledger.returned.length]? = some ticket ∧ ticket.item = item ∧
    ticket.filled = true

def Consumer.Knows (nitems : Nat) (ledger : Ledger α) : Consumer α → Prop
  | .idle => True
  | .loaded v =>
    (pcqSplit v).2 = ledger.returned.length % nitems ∧
      ledger.returned.length < ledger.tickets.length
  | .holding item v => (pcqSplit v).2 = ledger.returned.length % nitems ∧ ledger.Oldest item
  | .cleared item v nv =>
    (pcqSplit v).2 = ledger.returned.length % nitems ∧
      nv = pcqCombine (pcqSplit v).1 (pcqAdvance nitems (pcqSplit v).2) ∧ ledger.Oldest item
  | .reloading item => ledger.Oldest item

/-- The reservations and the slots agree. -/
structure Intact (q : Pcq α) (ledger : Ledger α) : Prop where
  nitems_pos : 0 < q.pcq_nitems
  nitems_le : q.pcq_nitems ≤ pcqMaxlen
  ordered : ledger.returned.length ≤ ledger.tickets.length
  room : ledger.tickets.length < ledger.returned.length + q.pcq_nitems
  pc : q.pcq_pc = pcqCombine (ledger.tickets.length % q.pcq_nitems)
    (ledger.returned.length % q.pcq_nitems)
  slots : ∀ k, ledger.returned.length ≤ k → k < ledger.returned.length + q.pcq_nitems →
    q.pcq_items (k % q.pcq_nitems) = content q.consumer ledger k
  returned_eq : ledger.returned = (ledger.tickets.take ledger.returned.length).map Ticket.item
  returned_filled : ∀ (k : Nat) (ticket : Ticket α), k < ledger.returned.length →
    ledger.tickets[k]? = some ticket → ticket.filled = true
  unfilled : ∀ (k : Nat) (ticket : Ticket α), ledger.tickets[k]? = some ticket →
    ticket.filled = false →
    q.producers ticket.thread = .reserved ticket.item (k % q.pcq_nitems)
  once : ∀ (k k' : Nat) (ticket ticket' : Ticket α), ledger.tickets[k]? = some ticket →
    ledger.tickets[k']? = some ticket' → ticket.filled = false → ticket'.filled = false →
    ticket.thread = ticket'.thread → k = k'
  reserved : ∀ (thread : Nat) (item : α) (op : Nat), q.producers thread = .reserved item op →
    ∃ (k : Nat) (ticket : Ticket α), ledger.tickets[k]? = some ticket ∧ ticket.thread = thread ∧
      ticket.filled = false
  loaded : ∀ (thread : Nat) (item : α) (v : UInt32), q.producers thread = .loaded item v →
    pcqAdvance q.pcq_nitems (pcqSplit v).1 ≠ (pcqSplit v).2
  knows : q.consumer.Knows q.pcq_nitems ledger

variable {q : Pcq α} {ledger : Ledger α}

theorem Intact.split_pc (intact : Intact q ledger) : pcqSplit q.pcq_pc =
      (ledger.tickets.length % q.pcq_nitems, ledger.returned.length % q.pcq_nitems) := by
  have pos := intact.nitems_pos
  have sml := intact.nitems_le
  have bound : pcqMaxlen = 65535 := rfl
  have pre := mod_lt ledger.tickets.length pos
  have back := mod_lt ledger.returned.length pos
  rw [intact.pc, pcqSplit_pcqCombine (by omega) (by omega)]

theorem Intact.full_iff (intact : Intact q ledger) :
    pcqAdvance q.pcq_nitems (pcqSplit q.pcq_pc).1 = (pcqSplit q.pcq_pc).2 ↔
      ledger.tickets.length + 1 = ledger.returned.length + q.pcq_nitems := by
  have pos := intact.nitems_pos
  have ord := intact.ordered
  have rm := intact.room
  rw [intact.split_pc]
  simp only [pcqAdvance_mod pos]
  constructor
  · intro same
    rw [← add_mod_right ledger.returned.length] at same
    exact @eq_of_mod_eq q.pcq_nitems (ledger.returned.length + 1) _ _ (by omega) (by omega) (by omega)
      (by omega) same
  · intro same
    rw [same, add_mod_right]

theorem Intact.empty_iff (intact : Intact q ledger) :
    (pcqSplit q.pcq_pc).1 = (pcqSplit q.pcq_pc).2 ↔
      ledger.tickets.length = ledger.returned.length := by
  have ord := intact.ordered
  have rm := intact.room
  rw [intact.split_pc]
  constructor
  · intro same
    exact @eq_of_mod_eq q.pcq_nitems ledger.returned.length _ _ (by omega) (by omega) (by omega)
      (by omega) same
  · intro same
    rw [same]

/-! ### Producers -/

variable {td : Nat}

theorem Intact.setProducer (intact : Intact q ledger) {producer : Producer α}
    (prev : ∀ item op, q.producers td ≠ .reserved item op)
    (s' : ∀ item op, producer ≠ .reserved item op)
    (rm : ∀ item v, producer = .loaded item v →
      pcqAdvance q.pcq_nitems (pcqSplit v).1 ≠ (pcqSplit v).2) :
    Intact (q.setProducer td producer) ledger where
  __ := intact
  unfilled := by
    intro k tick fnd isOpen
    have held := intact.unfilled k tick fnd isOpen
    have oth : tick.thread ≠ td := by
      intro same
      rw [same] at held
      exact prev _ _ held
    simpa [Pcq.setProducer, update_of_ne oth] using held
  reserved := by
    intro thread' item op isReserved
    by_cases same : thread' = td
    · subst same
      simp only [Pcq.setProducer, update_self] at isReserved
      exact absurd isReserved (s' item op)
    · simp only [Pcq.setProducer, update_of_ne same] at isReserved
      exact intact.reserved thread' item op isReserved
  loaded := by
    intro thread' item v isLoaded
    by_cases same : thread' = td
    · subst same
      simp only [Pcq.setProducer, update_self] at isLoaded
      exact rm item v isLoaded
    · simp only [Pcq.setProducer, update_of_ne same] at isLoaded
      exact intact.loaded thread' item v isLoaded

theorem Ledger.Oldest.append {item : α} (oldest : ledger.Oldest item) (tick : Ticket α) :
    Ledger.Oldest { ledger with tickets := ledger.tickets ++ [tick] } item := by
  obtain ⟨fst, fnd, facts⟩ := oldest
  exact ⟨fst, by
    rw [List.getElem?_append_left (List.getElem?_eq_some_iff.mp fnd).1]
    exact fnd, facts⟩

theorem Consumer.Knows.append {nitems : Nat} {consumer : Consumer α}
    (knows : consumer.Knows nitems ledger) (tick : Ticket α) :
    consumer.Knows nitems { ledger with tickets := ledger.tickets ++ [tick] } := by
  cases consumer with
  | idle => trivial
  | loaded v =>
    refine ⟨knows.1, ?_⟩
    have below := knows.2
    simp only [length_append]
    omega
  | holding item v => exact ⟨knows.1, knows.2.append tick⟩
  | cleared item v nv => exact ⟨knows.1, knows.2.1, knows.2.2.append tick⟩
  | reloading item => exact Ledger.Oldest.append knows tick

theorem content_append (consumer : Consumer α) {ledger : Ledger α} (td : Nat) (item : α)
    (k : Nat) :
    content consumer { ledger with tickets := ledger.tickets ++ [⟨td, item, false⟩] } k =
      content consumer ledger k := by
  unfold content
  by_cases lt : k < ledger.tickets.length
  · rw [getElem?_append_left lt]
  · have out : ledger.tickets[k]? = none := getElem?_eq_none (by omega)
    rw [out, getElem?_append_right (by omega)]
    cases k - ledger.tickets.length with
    | zero | succ => simp

variable {item : α}

/-- A successful compare-and-swap: the value loaded, however long ago, is the
present one, so there is room now and the slot is empty. -/
theorem Intact.reserve (intact : Intact q ledger)
    (isLoaded : q.producers td = .loaded item q.pcq_pc) : Intact ({ q with
        pcq_pc := pcqCombine (pcqAdvance q.pcq_nitems (pcqSplit q.pcq_pc).1)
          (pcqSplit q.pcq_pc).2 }.setProducer td
        (.reserved item (pcqSplit q.pcq_pc).1))
      { ledger with tickets := ledger.tickets ++ [⟨td, item, false⟩] } := by
  have notFull := mt intact.full_iff.mpr (intact.loaded td item q.pcq_pc isLoaded)
  have room := intact.room
  have ordered := intact.ordered
  have noTicket : ∀ (k : Nat) (tick : Ticket α), ledger.tickets[k]? = some tick →
      tick.filled = false → tick.thread ≠ td := by
    intro k tick fnd isOpen same
    have held := intact.unfilled k tick fnd isOpen
    rw [same, isLoaded] at held
    cases held
  have appended : ∀ (k : Nat) (tick : Ticket α),
      (ledger.tickets ++ [⟨td, item, false⟩])[k]? = some tick →
      ledger.tickets[k]? = some tick ∨
        k = ledger.tickets.length ∧ tick = ⟨td, item, false⟩ := by
    intro k tick fnd
    by_cases lt : k < ledger.tickets.length
    · rw [getElem?_append_left lt] at fnd
      exact .inl fnd
    have last : k < (ledger.tickets ++ [(⟨td, item, false⟩ : Ticket α)]).length :=
      (List.getElem?_eq_some_iff.mp fnd).1
    simp only [length_append, length_singleton] at last
    obtain rfl : k = ledger.tickets.length := by omega
    rw [getElem?_concat_length] at fnd
    exact .inr ⟨rfl, (some.inj fnd).symm⟩
  exact {
    __ := intact
    ordered := by
      simp only [length_append]
      omega
    room := by
      simp only [length_append, length_singleton, Pcq.setProducer]
      omega
    pc := by
      simp only [Pcq.setProducer, length_append, length_singleton]
      rw [intact.split_pc, pcqAdvance_mod intact.nitems_pos]
    slots := by
      intro k above below
      rw [content_append]
      exact intact.slots k above below
    returned_eq := by
      rw [take_append_of_le_length ordered]
      exact intact.returned_eq
    returned_filled := by
      intro k tick below fnd
      rcases appended k tick fnd with old | ⟨rfl, rfl⟩
      · exact intact.returned_filled k tick below old
      · exact absurd below (not_lt.mpr ordered)
    unfilled := by
      intro k tick fnd isOpen
      rcases appended k tick fnd with old | ⟨rfl, rfl⟩
      · have held := intact.unfilled k tick old isOpen
        simpa [Pcq.setProducer, update_of_ne (noTicket k tick old isOpen)] using held
      · simp [Pcq.setProducer, intact.split_pc]
    once := by
      intro k k' tick ticket' fnd hit' isOpen isOpen' same
      rcases appended k tick fnd with old | ⟨rfl, rfl⟩
      · rcases appended k' ticket' hit' with old' | ⟨rfl, rfl⟩
        · exact intact.once k k' tick ticket' old old' isOpen isOpen' same
        · exact absurd same (noTicket k tick old isOpen)
      · rcases appended k' ticket' hit' with old' | ⟨rfl, rfl⟩
        · exact absurd same.symm (noTicket k' ticket' old' isOpen')
        · rfl
    reserved := by
      intro thread' item' op isReserved
      by_cases same : thread' = td
      · subst same
        exact ⟨ledger.tickets.length, ⟨thread', item, false⟩, getElem?_concat_length, rfl, rfl⟩
      · simp only [Pcq.setProducer, update_of_ne same] at isReserved
        obtain ⟨k, tick, fnd, facts⟩ := intact.reserved thread' item' op isReserved
        refine ⟨k, tick, ?_, facts⟩
        rw [List.getElem?_append_left (List.getElem?_eq_some_iff.mp fnd).1]
        exact fnd
    loaded := by
      intro thread' item' v isLoaded'
      by_cases same : thread' = td
      · subst same
        simp [Pcq.setProducer] at isLoaded'
      · simp only [Pcq.setProducer, update_of_ne same] at isLoaded'
        exact intact.loaded thread' item' v isLoaded'
    knows := intact.knows.append _ }

theorem getElem?_fill (td k : Nat) : (ledger.tickets.map (Ticket.fill td))[k]? =
      (ledger.tickets[k]?).map (Ticket.fill td) := getElem?_map ..

theorem Ticket.fill_thread (td : Nat) (tick : Ticket α) :
    (tick.fill td).thread = tick.thread := by
  unfold Ticket.fill
  split <;> rfl

theorem Ticket.fill_item (td : Nat) (tick : Ticket α) :
    (tick.fill td).item = tick.item := by
  unfold Ticket.fill
  split <;> rfl

theorem Ticket.fill_eq_false {tick : Ticket α} (isOpen : (tick.fill td).filled = false) :
    tick.fill td = tick ∧ tick.filled = false ∧ tick.thread ≠ td := by
  unfold Ticket.fill at isOpen ⊢
  by_cases same : tick.thread = td
  · simp [same] at isOpen
  · rw [if_neg same] at isOpen ⊢
    exact ⟨rfl, isOpen, same⟩

theorem Ticket.filled_fill {tick : Ticket α} (full : tick.filled = true) :
    (tick.fill td).filled = true := by
  unfold Ticket.fill
  split
  · rfl
  · exact full

theorem Ledger.Oldest.fill (oldest : ledger.Oldest item) (td : Nat) :
    Ledger.Oldest { ledger with tickets := ledger.tickets.map (Ticket.fill td) } item := by
  obtain ⟨tick, fnd, sameItem, full⟩ := oldest
  refine ⟨tick.fill td, ?_, ?_, filled_fill full⟩
  · rw [getElem?_fill, fnd]
    rfl
  · rw [Ticket.fill_item, sameItem]

variable {consumer : Consumer α}

theorem Consumer.Knows.fill {nitems : Nat} (knows : consumer.Knows nitems ledger) (td : Nat) :
    consumer.Knows nitems { ledger with tickets := ledger.tickets.map (Ticket.fill td) } := by
  cases consumer with
  | idle => trivial
  | loaded v => exact ⟨knows.1, by simpa using knows.2⟩
  | holding item v => exact ⟨knows.1, knows.2.fill td⟩
  | cleared item v nv => exact ⟨knows.1, knows.2.1, knows.2.2.fill td⟩
  | reloading item => exact Ledger.Oldest.fill knows td

section

variable (intact : Intact q ledger)

include intact

theorem Intact.oldest_of_hasCleared (clrd : q.consumer.hasCleared = true) :
    ∃ item, ledger.Oldest item := by
  have knows := intact.knows
  cases consumer : q.consumer with
  | idle | loaded | holding => rw [consumer] at clrd; cases clrd
  | cleared item v nv => rw [consumer] at knows; exact ⟨item, knows.2.2⟩
  | reloading item => rw [consumer] at knows; exact ⟨item, knows⟩

/-- The reserved slot takes the item and the ticket is filled. -/
theorem Intact.store {op : Nat} (isReserved : q.producers td = .reserved item op) :
    Intact ((q.setItem op (some item)).setProducer td .idle)
      { ledger with tickets := ledger.tickets.map (Ticket.fill td) } := by
  obtain ⟨own, mine, fnd, sameThread, isOpen⟩ := intact.reserved td item op isReserved
  have held := intact.unfilled own mine fnd isOpen
  rw [sameThread, isReserved] at held
  obtain ⟨sameItem, slot⟩ : item = mine.item ∧ op = own % q.pcq_nitems := by
    simpa only [Producer.reserved.injEq] using held
  have ownBelow := (List.getElem?_eq_some_iff.mp fnd).1
  have ordered := intact.ordered
  have room := intact.room
  have ownAbove : ledger.returned.length ≤ own := by
    by_contra below
    have full := intact.returned_filled own mine (by omega) fnd
    rw [isOpen] at full
    cases full
  exact {
    __ := intact
    ordered := by simpa using ordered
    room := by simpa [Pcq.setProducer, Pcq.setItem] using room
    pc := by simpa [Pcq.setProducer, Pcq.setItem] using intact.pc
    slots := by
      intro k above below
      change update q.pcq_items op (some item) (k % q.pcq_nitems) = content q.consumer
        { ledger with tickets := ledger.tickets.map (Ticket.fill td) } k
      have old := intact.slots k above below
      unfold content at old ⊢
      rw [getElem?_fill]
      by_cases mineToo : k = own
      · subst mineToo
        have notCleared : ¬ (k = ledger.returned.length ∧ q.consumer.hasCleared = true) := by
          rintro ⟨oldest, clrd⟩
          obtain ⟨_, tick, hit', _, full⟩ := intact.oldest_of_hasCleared clrd
          rw [← oldest, fnd] at hit'
          rw [some.inj hit', full] at isOpen
          cases isOpen
        rw [fnd, slot]
        simp [Ticket.fill, sameThread, notCleared, sameItem]
      have otherSlot : k % q.pcq_nitems ≠ op := by
        intro same
        rw [slot] at same
        exact mineToo (@eq_of_mod_eq q.pcq_nitems ledger.returned.length k own above below ownAbove
          (by omega) same)
      rw [update_of_ne otherSlot, old]
      cases isTicket : ledger.tickets[k]? with
      | none => rfl
      | some tick =>
        by_cases same : tick.thread = td
        · have full : tick.filled = true := by
            by_contra notFilled
            exact mineToo (intact.once k own tick mine isTicket fnd
              (by simpa using notFilled) isOpen (by rw [same, sameThread]))
          simp [Ticket.fill, same, full]
        · simp [Ticket.fill, same]
    returned_eq := by
      have same : Ticket.item ∘ Ticket.fill td = (Ticket.item : Ticket α → α) :=
        funext fun tick => Ticket.fill_item td tick
      rw [← map_take, List.map_map, same]
      exact intact.returned_eq
    returned_filled := by
      intro k tick below hit'
      rw [getElem?_fill] at hit'
      obtain ⟨ticket', old, rfl⟩ := map_eq_some_iff.mp hit'
      exact filled_fill (intact.returned_filled k ticket' below old)
    unfilled := by
      intro k tick hit' isOpen'
      rw [getElem?_fill] at hit'
      obtain ⟨ticket', old, rfl⟩ := map_eq_some_iff.mp hit'
      obtain ⟨same, wasOpen, oth⟩ := fill_eq_false isOpen'
      rw [same]
      simpa [Pcq.setProducer, Pcq.setItem, update_of_ne oth] using
        intact.unfilled k ticket' old wasOpen
    once := by
      intro k k' tick ticket' hit' found'' isOpen' isOpen'' sameThread'
      rw [getElem?_fill] at hit' found''
      obtain ⟨fst, old, rfl⟩ := map_eq_some_iff.mp hit'
      obtain ⟨snd, old', rfl⟩ := map_eq_some_iff.mp found''
      rw [fill_thread, fill_thread] at sameThread'
      exact intact.once k k' fst snd old old' (fill_eq_false isOpen').2.1
        (fill_eq_false isOpen'').2.1 sameThread'
    reserved := by
      intro thread' item' op' isReserved'
      by_cases same : thread' = td
      · subst same
        simp [Pcq.setProducer] at isReserved'
      · simp only [Pcq.setProducer, update_of_ne same] at isReserved'
        obtain ⟨k, tick, old, sameThread', wasOpen⟩ :=
          intact.reserved thread' item' op' isReserved'
        refine ⟨k, tick, ?_, sameThread', wasOpen⟩
        rw [getElem?_fill, old, map_some, Ticket.fill, if_neg (by rw [sameThread']; exact same)]
    loaded := by
      intro thread' item' v isLoaded
      by_cases same : thread' = td
      · subst same
        simp [Pcq.setProducer] at isLoaded
      · simp only [Pcq.setProducer, update_of_ne same] at isLoaded
        exact intact.loaded thread' item' v isLoaded
    knows := intact.knows.fill td }

/-! ### The consumer -/

theorem Intact.setConsumer (sameCleared : consumer.hasCleared = q.consumer.hasCleared)
    (knows : consumer.Knows q.pcq_nitems ledger) :
    Intact { q with consumer := consumer } ledger where
  __ := intact
  slots := by
    intro k above below
    rw [intact.slots k above below, content, content, sameCleared]
  knows := knows

theorem Intact.clear {v : UInt32} (holds : q.consumer = .holding item v) :
    Intact { q.setItem (pcqSplit v).2 none with consumer := .cleared item v (q.nextPc v) }
      ledger := by
  have knows := intact.knows
  rw [holds] at knows
  obtain ⟨slot, oldest⟩ := knows
  have pos := intact.nitems_pos
  exact {
    __ := intact
    slots := by
      intro k above below
      change update q.pcq_items (pcqSplit v).2 none (k % q.pcq_nitems) =
        content (.cleared item v (q.nextPc v)) ledger k
      by_cases fst : k = ledger.returned.length
      · subst fst
        obtain ⟨tick, fnd, _⟩ := oldest
        rw [slot, content, fnd]
        simp [Consumer.hasCleared]
      have otherSlot : k % q.pcq_nitems ≠ (pcqSplit v).2 := by
        intro same
        rw [slot] at same
        exact fst (@eq_of_mod_eq q.pcq_nitems ledger.returned.length k _ above below (le_refl _)
          (by omega) same)
      rw [update_of_ne otherSlot, intact.slots k above below, content, content]
      simp [fst]
    knows := ⟨slot, rfl, oldest⟩ }

/-- The consumer moves on once its slot is cleared. -/
theorem Intact.release {nv : UInt32} (clrd : q.consumer = .cleared item q.pcq_pc nv) :
    Intact { q with pcq_pc := nv, consumer := .idle }
      { ledger with returned := ledger.returned ++ [item] } := by
  have knows := intact.knows
  rw [clrd] at knows
  obtain ⟨slot, next, tick, fnd, sameItem, full⟩ := knows
  have pos := intact.nitems_pos
  have below := (List.getElem?_eq_some_iff.mp fnd).1
  have room := intact.room
  exact {
    __ := intact
    ordered := by
      simp only [length_append, length_singleton]
      omega
    room := by
      simp only [length_append]
      omega
    pc := by
      simp only [length_append, length_singleton]
      rw [next, intact.split_pc, pcqAdvance_mod pos]
    slots := by
      intro k above below'
      simp only [length_append, length_singleton] at above below'
      by_cases last : k = ledger.returned.length + q.pcq_nitems
      · have old := intact.slots ledger.returned.length (le_refl _) (by omega)
        have noTicket : ledger.tickets[k]? = none := getElem?_eq_none (by omega)
        have emptied : content q.consumer ledger ledger.returned.length = none := by
          rw [content, fnd, clrd]
          simp [Consumer.hasCleared]
        rw [last, add_mod_right, old, emptied, content, ← last, noTicket]
      · rw [intact.slots k (by omega) (by omega), content, content]
        have notFirst : k ≠ ledger.returned.length := by omega
        simp [notFirst, Consumer.hasCleared]
    returned_eq := by
      simp only [length_append, length_singleton]
      rw [take_add_one, fnd, map_append, ← intact.returned_eq]
      simp [sameItem]
    returned_filled := by
      intro k ticket' below' hit'
      simp only [length_append, length_singleton] at below'
      by_cases last : k = ledger.returned.length
      · rw [last, fnd] at hit'
        rw [← some.inj hit']
        exact full
      · exact intact.returned_filled k ticket' (by omega) hit'
    knows := trivial }

end

/-! ### Steps and runs -/

/-- What an event says about the queue in the state that it happens in. -/
def Justified (nitems : Nat) (ledger : Ledger α) : Event α → Prop
  | .reserve _ _ => ledger.tickets.length + 1 < ledger.returned.length + nitems
  | .put thread =>
    ∃ ticket ∈ ledger.tickets, ticket.thread = thread ∧ ticket.filled = false
  | .full _ => ledger.tickets.length = ledger.returned.length + (nitems - 1)
  | .got item => ledger.Oldest item
  | .empty => ledger.tickets.length = ledger.returned.length
  | .unfilled =>
    ∃ ticket, ledger.tickets[ledger.returned.length]? = some ticket ∧ ticket.filled = false

/-- Both the invariant and the justification survive a step. -/
structure StepKept (q : Pcq α) (ledger : Ledger α) (taken : Pcq α × Option (Event α)) : Prop where
  intact : Intact taken.1 (ledger.record taken.2)
  justified : ∀ event, taken.2 = some event → Justified q.pcq_nitems ledger event

theorem StepKept.silent {s' : Pcq α} (intact : Intact s' ledger) :
    StepKept q ledger (s', none) :=
  ⟨intact, fun _ isEvent => nomatch isEvent⟩

theorem StepKept.visible {s' : Pcq α} {event : Event α}
    (intact : Intact s' (ledger.record (some event)))
    (justified : Justified q.pcq_nitems ledger event) : StepKept q ledger (s', some event) :=
  ⟨intact, fun _ isEvent => some.inj isEvent ▸ justified⟩

/-- A producer's next step, whichever it is. -/
theorem Intact.put (intact : Intact q ledger) (td : Nat) :
    StepKept q ledger (q.put td) := by
  unfold Pcq.put
  cases state : q.producers td with
  | idle => exact .silent intact
  | trying item =>
    have free : ∀ item' op, q.producers td ≠ .reserved item' op := by
      intro item' op
      rw [state]
      exact nofun
    simp only [Pcq.putLoad]
    by_cases full : pcqAdvance q.pcq_nitems (pcqSplit q.pcq_pc).1 = (pcqSplit q.pcq_pc).2
    · rw [if_pos full]
      have cnt := intact.full_iff.mp full
      have pos := intact.nitems_pos
      exact .visible (intact.setProducer free nofun nofun) (by simp only [Justified]; omega)
    · rw [if_neg full]
      refine .silent (intact.setProducer free nofun ?_)
      intro item' v isLoaded
      cases isLoaded
      exact full
  | loaded item v =>
    have free : ∀ item' op, q.producers td ≠ .reserved item' op := by
      intro item' op
      rw [state]
      exact nofun
    simp only [Pcq.putCas]
    by_cases same : q.pcq_pc = v
    · subst same
      rw [if_pos rfl]
      have notFull := mt intact.full_iff.mpr (intact.loaded td item q.pcq_pc state)
      have rm := intact.room
      exact .visible (intact.reserve state) (by simp only [Justified]; omega)
    · rw [if_neg same]
      exact .silent (intact.setProducer free nofun nofun)
  | reserved item op =>
    obtain ⟨k, tick, fnd, facts⟩ := intact.reserved td item op state
    exact .visible (intact.store state) ⟨tick, mem_of_getElem? fnd, facts⟩

theorem content_eq_some {k : Nat} (holds : content consumer ledger k = some item) :
    ∃ tick, ledger.tickets[k]? = some tick ∧ tick.item = item ∧ tick.filled = true := by
  unfold content at holds
  cases found : ledger.tickets[k]? with
  | none => rw [found] at holds; cases holds
  | some tick =>
    rw [found] at holds
    simp only at holds
    split at holds
    · rename_i full
      exact ⟨tick, rfl, some.inj holds, full.1⟩
    · cases holds

/-- The consumer's next step, whichever it is. -/
theorem Intact.get (intact : Intact q ledger) : StepKept q ledger q.get := by
  have pos := intact.nitems_pos
  have ord := intact.ordered
  have knows := intact.knows
  unfold Pcq.get
  cases state : q.consumer with
  | idle =>
    by_cases equal : (pcqSplit q.pcq_pc).1 = (pcqSplit q.pcq_pc).2
    · simp only [if_pos equal]
      exact .visible intact (intact.empty_iff.mp equal)
    · simp only [if_neg equal]
      have ne := mt intact.empty_iff.mpr equal
      refine .silent (intact.setConsumer (by rw [state]; rfl) ⟨?_, by omega⟩)
      rw [intact.split_pc]
  | loaded v =>
    rw [state] at knows
    obtain ⟨slot, below⟩ := knows
    have held := intact.slots ledger.returned.length (le_refl _) (by omega)
    rw [← slot] at held
    cases item : q.pcq_items (pcqSplit v).2 with
    | none =>
      simp only [item]
      refine .visible (intact.setConsumer (by rw [state]; rfl) trivial) ?_
      have fnd := getElem?_eq_getElem below
      refine ⟨_, fnd, ?_⟩
      rw [item, content, fnd, state] at held
      by_contra full
      simp [full, Consumer.hasCleared] at held
    | some item' =>
      simp only [item]
      refine .silent (intact.setConsumer (by rw [state]; rfl) ⟨slot, ?_⟩)
      exact content_eq_some (held.symm.trans item)
  | holding item v => exact .silent (intact.clear state)
  | cleared item v nv =>
    rw [state] at knows
    by_cases same : q.pcq_pc = v
    · subst same
      simp only [if_true]
      exact .visible (intact.release state) knows.2.2
    · simp only [if_neg same]
      exact .silent (intact.setConsumer (by rw [state]; rfl) knows.2.2)
  | reloading item =>
    rw [state] at knows
    refine .silent (intact.setConsumer (by rw [state]; rfl) ⟨?_, rfl, knows⟩)
    rw [intact.split_pc]

theorem Intact.step (intact : Intact q ledger) (action : Action α) :
    StepKept q ledger (q.step action) := by
  cases action with
  | call td item =>
    simp only [Pcq.step]
    cases state : q.producers td with
    | idle =>
      refine .silent (intact.setProducer ?_ nofun nofun)
      intro item' op
      rw [state]
      exact nofun
    | trying | loaded | reserved => exact .silent intact
  | produce td => exact intact.put td
  | consume => exact intact.get

theorem intact_create {nitems : Nat} (pos : 0 < nitems) (sml : nitems ≤ pcqMaxlen) :
    Intact (pcqCreate nitems : Pcq α) ⟨[], []⟩ where
  nitems_pos := pos
  nitems_le := sml
  ordered := le_refl 0
  room := by simpa [pcqCreate] using pos
  pc := by
    have zero : (0 : UInt32) = pcqCombine 0 0 := by decide
    simpa only [length_nil, zero_mod, pcqCreate] using zero
  slots := by
    simp [pcqCreate, content]
  returned_eq := rfl
  returned_filled := by
    intro k tick below
    simp at below
  unfilled := by
    intro k tick fnd
    simp at fnd
  once := by
    intro k k' tick ticket' fnd
    simp at fnd
  reserved := by
    intro td item op isReserved
    cases isReserved
  loaded := by
    intro td item v isLoaded
    cases isLoaded
  knows := trivial

theorem play_append (nitems : Nat) (actions : List (Action α)) (action : Action α) :
    play nitems (actions ++ [action]) = (((play nitems actions).1.step action).1,
        (play nitems actions).2.record ((play nitems actions).1.step action).2) := by
  simp [play]

theorem intact_play {nitems : Nat} (pos : 0 < nitems) (sml : nitems ≤ pcqMaxlen)
    (actions : List (Action α)) : Intact (play nitems actions).1 (play nitems actions).2 := by
  induction actions using List.reverseRecOn with
  | nil => exact intact_create pos sml
  | append_singleton actions action ih =>
    rw [play_append]
    exact (ih.step action).intact

theorem put_nitems (q : Pcq α) (td : Nat) : (q.put td).1.pcq_nitems = q.pcq_nitems := by
  unfold Pcq.put Pcq.putLoad Pcq.putCas
  cases q.producers td with
  | idle => rfl
  | trying | loaded => simp only; split <;> rfl
  | reserved item op => rfl

theorem get_nitems (q : Pcq α) : q.get.1.pcq_nitems = q.pcq_nitems := by
  unfold Pcq.get
  cases q.consumer with
  | idle | cleared => simp only; split <;> rfl
  | loaded v => simp only; cases q.pcq_items (pcqSplit v).2 <;> rfl
  | holding item v => rfl
  | reloading item => rfl

theorem play_nitems (nitems : Nat) (actions : List (Action α)) :
    (play nitems actions).1.pcq_nitems = nitems := by
  induction actions using List.reverseRecOn with
  | nil => rfl
  | append_singleton actions action ih =>
    rw [play_append]
    cases action with
    | call td item =>
      simp only [Pcq.step]
      cases (play nitems actions).1.producers td <;> exact ih
    | produce td => exact (put_nitems _ td).trans ih
    | consume => exact (get_nitems _).trans ih

def Consumer.hand : Consumer α → Option α
  | .cleared item _ _ => some item
  | .reloading item => some item
  | _ => none

/-- What callers may rely on: the items that were returned are the items of the
first reservations, in order and after their `pcq_put` returned true, and the
items of the later ones whose `pcq_put` returned true are still there. -/
structure Lossless (q : Pcq α) (ledger : Ledger α) : Prop where
  fifo : ledger.returned = (ledger.tickets.take ledger.returned.length).map Ticket.item
  filled : ∀ ticket ∈ ledger.tickets.take ledger.returned.length, ticket.filled = true
  bounded : ledger.tickets.length ≤ ledger.returned.length + (q.pcq_nitems - 1)
  kept : ∀ (k : Nat) (ticket : Ticket α), ledger.returned.length ≤ k →
    ledger.tickets[k]? = some ticket → ticket.filled = true →
    q.pcq_items (k % q.pcq_nitems) = some ticket.item ∨
      k = ledger.returned.length ∧ q.consumer.hand = some ticket.item

/-- The invariant says what a lossless queue must. -/
theorem Intact.lossless (intact : Intact q ledger) : Lossless q ledger where
  fifo := intact.returned_eq
  filled := by
    intro tick isIn
    obtain ⟨k, fnd⟩ := mem_iff_getElem?.mp isIn
    rw [getElem?_take] at fnd
    split at fnd
    · rename_i below
      exact intact.returned_filled k tick below fnd
    · cases fnd
  bounded := by
    have rm := intact.room
    omega
  kept := by
    intro k tick above fnd filled
    have below := (List.getElem?_eq_some_iff.mp fnd).1
    have rm := intact.room
    have held := intact.slots k above (by omega)
    rw [content, fnd] at held
    by_cases taken : k = ledger.returned.length ∧ q.consumer.hasCleared = true
    · obtain ⟨rfl, clrd⟩ := taken
      refine .inr ⟨rfl, ?_⟩
      have knows := intact.knows
      have same : ∀ {item : α}, ledger.Oldest item → item = tick.item := by
        rintro item ⟨ticket', hit', rfl, _⟩
        rw [fnd] at hit'
        rw [some.inj hit']
      cases state : q.consumer with
      | idle | loaded | holding => rw [state] at clrd; cases clrd
      | cleared item v nv =>
        rw [state] at knows
        exact congrArg some (same knows.2.2)
      | reloading item =>
        rw [state] at knows
        exact congrArg some (same knows)
    · left
      rw [held]
      simp only
      rw [if_pos ⟨filled, taken⟩]

end Invariant

/-- The size that `pcq_create` is called with. -/
abbrev Size := { nitems : Nat // 0 < nitems ∧ nitems ≤ pcqMaxlen }

/-- Every run of producers and the consumer keeps the ledger of a lossless queue. -/
theorem pcq_losslessFifo {α : Type} (nitems : Size) (actions : List (Action α)) :
    Lossless (play nitems.val actions).1 (play nitems.val actions).2 ∧
    (play nitems.val actions).1.pcq_nitems = nitems.val ∧
    ∀ action event, ((play nitems.val actions).1.step action).2 = some event →
      Justified nitems.val (play nitems.val actions).2 event := by
  have intact : Intact (play nitems.val actions).1 (play nitems.val actions).2 :=
    intact_play nitems.2.1 nitems.2.2 actions
  have size := play_nitems nitems.val actions
  refine ⟨intact.lossless, size, ?_⟩
  intro action event isEvent
  have justified := (intact.step action).justified event isEvent
  rw [size] at justified
  exact justified

end NetBSD.Kern.SubrPcq
