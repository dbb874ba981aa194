import NetBSD.Net.Bpf.Safety

/-!
Owns the question whether a filter can see how a packet is cut into mbufs. A
cut is the list of its segment lengths. `CutOk` says that every two- and
four-byte window of the packet lies in one segment or in two adjacent ones,
with no empty segment in between; for such cuts the chain readers return what
a bounds-checked read of the contiguous bytes returns, and for every other cut
some accepted program tells the two packets apart.
-/

namespace NetBSD.Net.Bpf

open NetBSD.Kern NetBSD.Machine Function List Option Outcome Size

/-- A bounds-checked read of a contiguous packet of `total` bytes. -/
def flatRead (size : Size) (p : Nat → UInt8) (total k : Nat) : Option UInt32 :=
  if k + size.width ≤ total then some (extract size p k) else none

/-- The contiguous memory `p` starts with the packet of a chain. -/
def Holds (chain : List Mbuf) (p : Nat → UInt8) : Prop :=
  ∀ i < mlength chain, (mbytes chain)[i]? = some (p i)

/-- A word that starts in the last bytes of a non-empty segment and lies inside
the packet ends in the segment right after it, and that segment is not empty. -/
def CutOk : List Nat → Prop
  | [] => True
  | n :: rest =>
    (0 < n → ∀ n0 ∈ rest.head?, 0 < n0 ∧
      ∀ r ∈ [1, 2, 3], r ≤ n → 4 ≤ r + rest.sum → 4 ≤ r + n0) ∧ CutOk rest

instance decidableCutOk : (cut : List Nat) → Decidable (CutOk cut)
  | [] => inferInstanceAs (Decidable True)
  | n :: rest =>
    have := decidableCutOk rest
    inferInstanceAs (Decidable ((0 < n → ∀ n0 ∈ rest.head?, 0 < n0 ∧
      ∀ r ∈ [1, 2, 3], r ≤ n → 4 ≤ r + rest.sum → 4 ≤ r + n0) ∧ CutOk rest))

def cutOf (chain : List Mbuf) : List Nat := chain.map Mbuf.m_len

theorem sum_cutOf (chain : List Mbuf) : (cutOf chain).sum = mlength chain := by
  induction chain with
  | nil => rfl
  | cons m tl ih => simpa [cutOf, mlength] using ih

/-! ### Chain reads -/

theorem mlength_append (pre back : List Mbuf) :
    mlength (pre ++ back) = mlength pre + mlength back := by
  induction pre with
  | nil => simp [mlength]
  | cons m tl ih =>
    simp only [cons_append, mlength]
    omega

variable {chain : List Mbuf} {k : Nat}

theorem mindex_none (miss : mindex chain k = none) : mlength chain ≤ k := by
  induction chain generalizing k with
  | nil => simp [mlength]
  | cons m tl ih =>
    simp only [mindex] at miss
    split at miss
    · have tail := ih miss
      simp only [mlength]
      omega
    · cases miss

variable {tl : List Mbuf} {j : Nat}

theorem mindex_some {m : Mbuf} (found : mindex chain k = some (m, tl, j)) :
    ∃ pre, chain = pre ++ m :: tl ∧ k = mlength pre + j ∧ j < m.m_len := by
  induction chain generalizing k with
  | nil => simp [mindex] at found
  | cons head tail ih =>
    simp only [mindex] at found
    split at found
    · obtain ⟨pre, chn, isOffset, lt⟩ := ih found
      refine ⟨head :: pre, by simp [chn], ?_, lt⟩
      simp only [mlength]
      omega
    · simp only [some.injEq] at found
      obtain ⟨rfl, rfl, rfl⟩ := found
      exact ⟨[], rfl, by simp [mlength], by omega⟩

theorem mindex_append (pre : List Mbuf) (m : Mbuf) (tl : List Mbuf) (lt : j < m.m_len) :
    mindex (pre ++ m :: tl) (mlength pre + j) = some (m, tl, j) := by
  induction pre with
  | nil => simp [mindex, mlength, lt]
  | cons head pre ih =>
    simp only [cons_append, mindex, mlength]
    rw [if_pos (by omega)]
    have shift : head.m_len + mlength pre + j - head.m_len = mlength pre + j := by omega
    rw [shift]
    exact ih

theorem CutOk.append_right {pre back : List Nat} (ok : CutOk (pre ++ back)) : CutOk back := by
  induction pre with
  | nil => exact ok
  | cons n pre ih => exact ih ok.2

theorem Holds.tail {pre back : List Mbuf} {p : Nat → UInt8} (holds : Holds (pre ++ back) p) :
    Holds back (fun i => p (mlength pre + i)) := by
  intro i below
  have atIndex := holds (mlength pre + i) (by rw [mlength_append]; omega)
  rw [mbytes, flatMap_append] at atIndex
  rw [getElem?_append_right (by
    have front_length := length_mbytes pre
    rw [mbytes] at front_length
    omega)] at atIndex
  have front_length := length_mbytes pre
  rw [mbytes] at front_length
  rw [front_length] at atIndex
  simpa [mbytes] using atIndex

variable {p : Nat → UInt8}

theorem Holds.head {m : Mbuf} (holds : Holds (m :: tl) p) {i : Nat} (below : i < m.m_len) :
    m.data i = p i := by
  have atIndex := holds i (by simp only [mlength]; omega)
  rw [getElem?_mbytes_head m tl below] at atIndex
  exact some.inj atIndex

theorem Holds.second {m m0 : Mbuf} (holds : Holds (m :: m0 :: tl) p) {i : Nat}
    (below : i < m0.m_len) : m0.data i = p (m.m_len + i) := by
  have shd : Holds (m0 :: tl) (fun i => p (mlength [m] + i)) :=
    @Holds.tail [m] (m0 :: tl) p holds
  simpa [mlength] using shd.head below

theorem flatRead_inside {size : Size} {total : Nat} (lt : k + size.width ≤ total) :
    flatRead size p total k = some (extract size p k) := by
  rw [flatRead, if_pos lt]

theorem flatRead_beyond {size : Size} {total : Nat} (far : total < k + size.width) :
    flatRead size p total k = none := by
  rw [flatRead, if_neg (by omega)]

/-- What the readers know once `MINDEX` has found byte `k` at offset `j` of
mbuf `m`: the bytes left in `m`, and the mbuf after it under a good cut. -/
structure Located (chain : List Mbuf) (p : Nat → UInt8) (k : Nat) (m : Mbuf) (rest : List Mbuf)
    (j : Nat) : Prop where
  inside : j < m.m_len
  total : mlength chain = k + (m.m_len - j) + mlength rest
  here : ∀ i, j + i < m.m_len → m.data (j + i) = p (k + i)
  adjacent : ∀ m0 ∈ rest.head?, 0 < m0.m_len ∧
    (∀ r ∈ [1, 2, 3], r ≤ m.m_len → 4 ≤ r + mlength rest → 4 ≤ r + m0.m_len) ∧
    ∀ i < m0.m_len, m0.data i = p (k + (m.m_len - j) + i)

theorem located (ok : CutOk (cutOf chain)) (holds : Holds chain p) {m : Mbuf}
    (found : mindex chain k = some (m, tl, j)) : Located chain p k m tl j := by
  obtain ⟨pre, chn, isOffset, lt⟩ := mindex_some found
  subst chn
  have tailOk : CutOk (m.m_len :: cutOf tl) := by
    rw [cutOf, map_append] at ok
    exact ok.append_right
  have tailHolds := holds.tail
  refine ⟨lt, ?_, ?_, ?_⟩
  · rw [mlength_append, mlength]
    omega
  · intro i below
    rw [tailHolds.head below, isOffset, add_assoc]
  · intro m0 next'
    cases tl with
    | nil => cases next'
    | cons next back =>
      obtain rfl : next = m0 := by simpa using next'
      have segments := tailOk.1 (by omega) next.m_len (by simp [cutOf])
      rw [sum_cutOf] at segments
      refine ⟨segments.1, segments.2, ?_⟩
      intro i below
      rw [tailHolds.second below]
      congr 1
      omega

section Located

variable {chain : List Mbuf} {p : Nat → UInt8} {k : Nat} {m : Mbuf} {tl : List Mbuf} {j : Nat}

section

variable (plc : Located chain p k m tl j) (found : mindex chain k = some (m, tl, j))

include plc found

theorem Located.mXbyte_eq : mXbyte chain k = flatRead .b p (mlength chain) k := by
  have total := plc.total
  have lt := plc.inside
  have fst := plc.here 0 (by omega)
  rw [flatRead_inside (by simp only [width]; omega)]
  simp only [mXbyte, found, extract]
  rw [add_zero] at fst
  rw [fst, add_zero]

theorem Located.mXhalf_eq : mXhalf chain k = flatRead .h p (mlength chain) k := by
  have total := plc.total
  have lt := plc.inside
  have fst := plc.here 0 (by omega)
  simp only [add_zero] at fst
  simp only [mXhalf, found]
  by_cases fits : 2 ≤ m.m_len - j
  · have snd := plc.here 1 (by omega)
    rw [if_pos fits, flatRead_inside (by simp only [width]; omega), fst, snd]
    rfl
  rw [if_neg fits]
  cases tl with
  | nil =>
    simp only [mlength] at total
    rw [flatRead_beyond (by simp only [width]; omega)]
  | cons m0 back =>
    obtain ⟨pos, -, cont⟩ := plc.adjacent m0 (by simp)
    have snd := cont 0 pos
    have span : m.m_len - j = 1 := by omega
    rw [mlength] at total
    rw [span] at snd
    rw [flatRead_inside (by simp only [width]; omega)]
    simp only [fst, snd]
    rfl

theorem Located.mXword_eq : mXword chain k = flatRead .w p (mlength chain) k := by
  have total := plc.total
  have lt := plc.inside
  have here := plc.here
  simp only [mXword, found]
  by_cases fits : 4 ≤ m.m_len - j
  · rw [if_pos fits, flatRead_inside (by simp only [width]; omega), here 0 (by omega),
      here 1 (by omega), here 2 (by omega), here 3 (by omega)]
    rfl
  rw [if_neg fits]
  cases tl with
  | nil =>
    simp only [mlength] at total
    rw [flatRead_beyond (by simp only [width]; omega)]
  | cons m0 back =>
    obtain ⟨pos, path, cont⟩ := plc.adjacent m0 (by simp)
    have le : m0.m_len ≤ mlength (m0 :: back) := by
      rw [mlength]
      omega
    simp only
    by_cases short : m.m_len - j + m0.m_len < 4
    · have noReach : ¬ 4 ≤ m.m_len - j + mlength (m0 :: back) := by
        intro suff
        have got := path (m.m_len - j) (by simp; omega) (by omega) suff
        omega
      rw [if_pos short, flatRead_beyond (by simp only [width]; omega)]
    rw [if_neg short, flatRead_inside (by simp only [width]; omega)]
    have spans : m.m_len - j = 1 ∨ m.m_len - j = 2 ∨ m.m_len - j = 3 := by omega
    rcases spans with span | span | span
    · rw [span] at cont ⊢
      rw [here 0 (by omega), cont 0 (by omega), cont 1 (by omega), cont 2 (by omega)]
      rfl
    · rw [span] at cont ⊢
      rw [here 0 (by omega), here 1 (by omega), cont 0 (by omega), cont 1 (by omega)]
      rfl
    · rw [span] at cont ⊢
      rw [here 0 (by omega), here 1 (by omega), here 2 (by omega), cont 0 (by omega)]
      rfl

end

end Located

theorem mX_eq_flatRead (ok : CutOk (cutOf chain)) (holds : Holds chain p) (size : Size) (k : Nat) :
    mX size chain k = flatRead size p (mlength chain) k := by
  cases found : mindex chain k with
  | none =>
    have far := mindex_none found
    rw [flatRead_beyond (by cases size <;> simp only [width] <;> omega)]
    cases size <;> simp [mX, mXword, mXhalf, mXbyte, found]
  | some plc =>
    have plc := located ok holds found
    cases size with
    | b => exact plc.mXbyte_eq found
    | h => exact plc.mXhalf_eq found
    | w => exact plc.mXword_eq found

/-! ### Packet loads -/

section Loads

variable (p : Nat → UInt8) {args : BpfArgs}

theorem ldAbs_chain (noBuffer : args.buflen = 0) (size : Size) (k : UInt32) :
    ldAbs size p args k = mX size args.pkt.chain k.toNat := by
  cases size <;> simp [ldAbs, noBuffer]

theorem ldInd_chain (noBuffer : args.buflen = 0) (size : Size) (x k : UInt32) :
    ldInd size p args x k = if x + k < x then none else mX size args.pkt.chain (x + k).toNat := by
  cases size <;> simp [ldInd, noBuffer]

theorem ldxMsh_chain (noBuffer : args.buflen = 0) (k : UInt32) : ldxMsh p args k =
      (mX .b args.pkt.chain k.toNat).map (fun byte : UInt32 => (byte &&& 0xf) <<< 2) := by
  simp [ldxMsh, noBuffer, mX]

theorem ldAbs_flat (buffer : 0 < args.buflen) (size : Size) (k : UInt32) :
    ldAbs size p args k = flatRead size p args.buflen k.toNat := by
  have present : args.buflen ≠ 0 := by omega
  by_cases lt : k.toNat + size.width ≤ args.buflen
  · rw [flatRead_inside lt]
    cases size <;> simp only [width] at lt <;> simp [ldAbs] <;> omega
  · rw [flatRead_beyond (by omega)]
    cases size <;> simp only [width] at lt <;> simp [ldAbs, present] <;> omega

theorem ldInd_flat (buffer : 0 < args.buflen) (size : Size) (x k : UInt32) : ldInd size p args x k =
      if x + k < x then none else flatRead size p args.buflen (x + k).toNat := by
  have present : args.buflen ≠ 0 := by omega
  by_cases wraps : x + k < x
  · cases size <;> simp [ldInd, wraps]
  by_cases lt : (x + k).toNat + size.width ≤ args.buflen
  · rw [flatRead_inside lt]
    cases size <;> simp only [width] at lt <;> simp [ldInd, wraps, -UInt32.toNat_add] <;> omega
  · rw [flatRead_beyond (by omega)]
    cases size <;> simp only [width] at lt <;>
      simp [ldInd, present, -UInt32.toNat_add] <;> omega

theorem ldxMsh_flat (buffer : 0 < args.buflen) (k : UInt32) :
    ldxMsh p args k = (flatRead .b p args.buflen k.toNat).map
      (fun byte : UInt32 => (byte &&& 0xf) <<< 2) := by
  by_cases lt : k.toNat + 1 ≤ args.buflen
  · rw [flatRead_inside lt, ldxMsh, if_neg (by omega)]
    rfl
  · rw [flatRead_beyond (by simp only [width]; omega), ldxMsh, if_pos (by omega),
      if_pos (by omega)]
    rfl

end Loads

/-- Two argument records that every packet load reads alike. -/
structure ReadsAlike (p p' : Nat → UInt8) (args args' : BpfArgs) : Prop where
  wirelen : args.wirelen = args'.wirelen
  abs : ∀ size k, ldAbs size p args k = ldAbs size p' args' k
  ind : ∀ size x k, ldInd size p args x k = ldInd size p' args' x k
  msh : ∀ k, ldxMsh p args k = ldxMsh p' args' k

theorem ReadsAlike.setMem {p' : Nat → UInt8} {args args' : BpfArgs}
    (alike : ReadsAlike p p' args args') (mem mem' : Nat → UInt32) :
    ReadsAlike p p' { args with mem := mem } { args' with mem := mem' } :=
  ⟨alike.wirelen, alike.abs, alike.ind, alike.msh⟩

theorem readsAlike_of_cutOk {p' : Nat → UInt8} {args args' : BpfArgs}
    (ok : CutOk (cutOf args.pkt.chain)) (holds : Holds args.pkt.chain p')
    (wirelen : args.wirelen = args'.wirelen) (noBuffer : args.buflen = 0)
    (buffer : args'.buflen = mlength args.pkt.chain) (pos : 0 < mlength args.pkt.chain) :
    ReadsAlike p p' args args' := by
  have sameRead := mX_eq_flatRead ok holds
  refine ⟨wirelen, ?_, ?_, ?_⟩
  · intro size k
    rw [ldAbs_chain p noBuffer, ldAbs_flat p' (by omega), buffer, sameRead]
  · intro size x k
    rw [ldInd_chain p noBuffer, ldInd_flat p' (by omega), buffer, sameRead]
  · intro k
    rw [ldxMsh_chain p noBuffer, ldxMsh_flat p' (by omega), buffer, sameRead]

/-! ### Runs in lock step -/

section LockStep

variable {target : Target} {f : List BpfInsn} {p p' : Nat → UInt8}

/-- The two interpreters are at the same instruction with the same registers,
and agree on every scratch word that the solution calls written. -/
structure Alike (dataFlow : DataFlow (none : Option (BpfCtx Unit)) f) (p p' : Nat → UInt8)
    (s t : FilterState Unit) : Prop where
  pc : s.pc = t.pc
  inRange : s.pc < f.length
  a : s.a = t.a
  x : s.x = t.x
  reads : ReadsAlike p p' s.args t.args
  mem : ∀ w < 32, dataFlow.invalid s.pc w = false → s.args.mem w = t.args.mem w

/-- Both interpreters stop with one value, or both move to alike states. -/
def Together (dataFlow : DataFlow (none : Option (BpfCtx Unit)) f) (p p' : Nat → UInt8)
    (left right : Step (FilterState Unit) (Outcome Unit)) : Prop :=
  (∃ s t, left = .next s ∧ right = .next t ∧ Alike dataFlow p p' s t) ∨
  (∃ r r', left = .done r ∧ right = .done r' ∧ r.value? = r'.value?)

variable {dataFlow : DataFlow (none : Option (BpfCtx Unit)) f} {s t : FilterState Unit}
  {insn : BpfInsn}

section

variable (alike : Alike dataFlow p p' s t) (present : f[s.pc]? = some insn)
  (noStore : storedWord insn = none)

include alike present noStore

theorem Alike.move {j' : Nat} (nxt : j ∈ succs s.pc insn) {a a' x x' : UInt32}
    (samePc : j = j') (sameA : a = a') (sameX : x = x') :
    Alike dataFlow p p' { s with pc := j, a := a, x := x } { t with pc := j', a := a', x := x' }
    where
  pc := samePc
  inRange := (dataFlow.edge _ _ present _ nxt).2
  a := sameA
  x := sameX
  reads := alike.reads
  mem := by
    intro w below valid
    rcases dataFlow.flow _ _ present _ nxt w below valid with prev | kept
    · exact alike.mem w below prev
    · rw [noStore] at kept
      cases kept

theorem Alike.setA (nxt : s.pc + 1 ∈ succs s.pc insn) {v value' : Option UInt32}
    (same : v = value') : Together dataFlow p p' (s.setA v) (t.setA value') := by
  subst same
  cases v with
  | none => exact Or.inr ⟨_, _, rfl, rfl, rfl⟩
  | some loaded =>
    exact Or.inl ⟨_, _, rfl, rfl,
      alike.move present noStore nxt (by rw [alike.pc]) rfl alike.x⟩

theorem Alike.setX (nxt : s.pc + 1 ∈ succs s.pc insn) {v value' : Option UInt32}
    (same : v = value') : Together dataFlow p p' (s.setX v) (t.setX value') := by
  subst same
  cases v with
  | none => exact Or.inr ⟨_, _, rfl, rfl, rfl⟩
  | some loaded =>
    exact Or.inl ⟨_, _, rfl, rfl,
      alike.move present noStore nxt (by rw [alike.pc]) alike.a rfl⟩

theorem Alike.jump {off' offset' : Nat} (nxt : s.pc + 1 + off' ∈ succs s.pc insn)
    (same : off' = offset') : Together dataFlow p p' (s.jump off') (t.jump offset') :=
  Or.inl ⟨_, _, rfl, rfl,
    alike.move present noStore nxt (by rw [alike.pc, same]) alike.a alike.x⟩

end

theorem Alike.setMem (alike : Alike dataFlow p p' s t) (present : f[s.pc]? = some insn)
    (stores : storedWord insn = some insn.k.toNat) (nxt : s.pc + 1 ∈ succs s.pc insn)
    {v value' : UInt32} (same : v = value') :
    Together dataFlow p p' (s.setMem insn.k v) (t.setMem insn.k value') := by
  subst same
  refine Or.inl ⟨_, _, rfl, rfl, ⟨?_, ?_, alike.a, alike.x, alike.reads.setMem _ _, ?_⟩⟩
  · show s.pc + 1 = t.pc + 1
    rw [alike.pc]
  · exact (dataFlow.edge _ _ present _ nxt).2
  · intro w below valid
    show update s.args.mem insn.k.toNat v w =
      update t.args.mem insn.k.toNat v w
    by_cases isStored : w = insn.k.toNat
    · rw [isStored, update_self, update_self]
    · rw [update_of_ne isStored, update_of_ne isStored]
      rcases dataFlow.flow _ _ present _ nxt w below valid with prev | kept
      · exact alike.mem w below prev
      · rw [stores] at kept
        exact absurd (some.inj kept).symm isStored

theorem Alike.ret (_alike : Alike dataFlow p p' s t) {v value' : UInt32}
    (same : v = value') : Together dataFlow p p' (s.ret v) (t.ret value') :=
  Or.inr ⟨_, _, rfl, rfl, by simp [value?, same]⟩

theorem Alike.operand (alike : Alike dataFlow p p' s t) (src : Src) :
    s.operand insn src = t.operand insn src := by
  cases src with
  | k => rfl
  | x => exact alike.x

theorem Alike.loaded (alike : Alike dataFlow p p' s t) (present : f[s.pc]? = some insn)
    (loads : loadedWord insn = some insn.k.toNat) :
    s.args.mem insn.k.toNat = t.args.mem insn.k.toNat := by
  obtain ⟨rng, valid⟩ := dataFlow.load _ _ _ present loads
  have words := memwords_le (none : Option (BpfCtx Unit))
  exact alike.mem _ (by omega) valid

/-- Two chains of the same bytes step alike. -/
theorem filterStep_together (alike : Alike dataFlow p p' s t) :
    Together dataFlow p p' (filterStep target none f p s) (filterStep target none f p' t) := by
  obtain ⟨insn, present⟩ : ∃ insn, f[s.pc]? = some insn :=
    ⟨_, getElem?_eq_getElem alike.inRange⟩
  unfold filterStep
  rw [← alike.pc, present]
  simp only
  cases decoded : Op.decode insn.code with
  | none => exact alike.ret rfl
  | some op =>
    cases op with
    | retK => exact alike.ret rfl
    | retA => exact alike.ret alike.a
    | ldAbs size =>
      apply alike.setA present (by simp [storedWord, decoded]) (by simp [succs, decoded])
      exact alike.reads.abs size insn.k
    | ldInd size =>
      apply alike.setA present (by simp [storedWord, decoded]) (by simp [succs, decoded])
      rw [alike.x]
      exact alike.reads.ind size t.x insn.k
    | ldLen =>
      simp only [execOp]
      apply alike.setA present (by simp [storedWord, decoded]) (by simp [succs, decoded])
      rw [alike.reads.wirelen]
    | ldxLen =>
      simp only [execOp]
      apply alike.setX present (by simp [storedWord, decoded]) (by simp [succs, decoded])
      rw [alike.reads.wirelen]
    | ldxMsh =>
      apply alike.setX present (by simp [storedWord, decoded]) (by simp [succs, decoded])
      exact alike.reads.msh insn.k
    | ldImm =>
      simp only [execOp]
      exact alike.setA present (by simp [storedWord, decoded]) (by simp [succs, decoded]) rfl
    | ldxImm =>
      simp only [execOp]
      exact alike.setX present (by simp [storedWord, decoded]) (by simp [succs, decoded]) rfl
    | ldMem =>
      simp only [execOp]
      apply alike.setA present (by simp [storedWord, decoded]) (by simp [succs, decoded])
      rw [alike.loaded present (by simp [loadedWord, decoded])]
    | ldxMem =>
      simp only [execOp]
      apply alike.setX present (by simp [storedWord, decoded]) (by simp [succs, decoded])
      rw [alike.loaded present (by simp [loadedWord, decoded])]
    | st =>
      exact alike.setMem present (by simp [storedWord, decoded]) (by simp [succs, decoded]) alike.a
    | stx =>
      exact alike.setMem present (by simp [storedWord, decoded]) (by simp [succs, decoded]) alike.x
    | ja =>
      exact alike.jump present (by simp [storedWord, decoded]) (by simp [succs, decoded]) rfl
    | jmp op src =>
      have sameTest : jmpTest op s.a (s.operand insn src) =
          jmpTest op t.a (t.operand insn src) := by
        rw [alike.a, alike.operand]
      simp only [execOp, ← sameTest]
      apply alike.jump present (by simp [storedWord, decoded]) _ rfl
      cases jmpTest op s.a (s.operand insn src) <;> simp [succs, decoded]
    | alu op src =>
      cases src with
      | k =>
        simp only [execOp]
        by_cases dvd : (op = .div ∨ op = .mod) ∧ insn.k = 0
        · rw [if_pos dvd, if_pos dvd]
          exact Or.inr ⟨_, _, rfl, rfl, rfl⟩
        · rw [if_neg dvd, if_neg dvd, alike.a]
          exact alike.setA present (by simp [storedWord, decoded]) (by simp [succs, decoded]) rfl
      | x =>
        simp only [execOp, ← alike.x, ← alike.a]
        by_cases dvd : (op = .div ∨ op = .mod) ∧ s.x = 0
        · rw [if_pos dvd, if_pos dvd]
          exact alike.ret rfl
        · rw [if_neg dvd, if_neg dvd]
          exact alike.setA present (by simp [storedWord, decoded]) (by simp [succs, decoded]) rfl
    | neg =>
      simp only [execOp]
      apply alike.setA present (by simp [storedWord, decoded]) (by simp [succs, decoded])
      rw [alike.a]
    | tax =>
      simp only [execOp]
      apply alike.setX present (by simp [storedWord, decoded]) (by simp [succs, decoded])
      rw [alike.a]
    | txa =>
      simp only [execOp]
      apply alike.setA present (by simp [storedWord, decoded]) (by simp [succs, decoded])
      rw [alike.x]
    | cop | copx => exact Or.inr ⟨_, _, rfl, rfl, rfl⟩

end LockStep

/-- A filter returns the same value from a chain and from contiguous memory
that its packet loads read alike, whatever the stack held. -/
theorem bpfFilter_alike (target : Target) {f : List BpfInsn} (acc : bpfValidate f = true)
    {pkt pkt' : Pkt} {wirelen buflen buflen' : UInt32} {junk junk' : Nat → UInt32}
    (reads : ReadsAlike pkt.bytes pkt'.bytes ⟨pkt, wirelen.toNat, buflen.toNat, junk⟩
      ⟨pkt', wirelen.toNat, buflen'.toNat, junk'⟩) :
    ∃ v, (bpfFilter target (some f) pkt wirelen buflen junk f.length).bind value? =
        some v ∧
      (bpfFilter target (some f) pkt' wirelen buflen' junk' f.length).bind value? =
        some v := by
  obtain ⟨dataFlow⟩ := bpfValidateExt_dataFlow acc
  have beg : Alike dataFlow pkt.bytes pkt'.bytes
      (filterStart ⟨pkt, wirelen.toNat, buflen.toNat, junk⟩ ())
      (filterStart ⟨pkt', wirelen.toNat, buflen'.toNat, junk'⟩ ()) := by
    refine ⟨rfl, dataFlow.nonempty, rfl, rfl, reads, ?_⟩
    intro w below valid
    have declared := dataFlow.entry w below valid
    simp [preinited] at declared
  obtain ⟨⟨v, args', world', fin⟩, -⟩ := bpfValidateExt_sound target none f acc
    ⟨pkt, wirelen.toNat, buflen.toNat, junk⟩ ()
  have together : ∀ s t, Alike dataFlow pkt.bytes pkt'.bytes s t →
      Together dataFlow pkt.bytes pkt'.bytes (filterStep target none f pkt.bytes s)
        (filterStep target none f pkt'.bytes t) := fun s t => filterStep_together
  obtain ⟨res, finished', same⟩ := run_lockstep _
    (fun r r' : Outcome Unit => r.value? = r'.value?) together beg fin
  refine ⟨v, ?_, ?_⟩
  · rw [bpfFilter, fin]
    rfl
  · show (run (filterStep target none f pkt'.bytes) f.length _).bind value? = some v
    rw [finished']
    exact same.symm

/-! ### Segmentation -/

/-- Filters cannot see the cut: every accepted program returns the same value
from a chain with this cut and from its bytes laid out contiguously. -/
def SegmentationIndependent (cut : List Nat) : Prop :=
  ∀ (target : Target) (f : List BpfInsn) (pkt pkt' : Pkt) (wirelen : UInt32)
    (junk junk' : Nat → UInt32),
    bpfValidate f = true → cutOf pkt.chain = cut → Holds pkt.chain pkt'.bytes →
    ∃ value, (bpfFilter target (some f) pkt wirelen 0 junk f.length).bind Outcome.value? =
        some value ∧
      (bpfFilter target (some f) pkt' wirelen (UInt32.ofNat cut.sum) junk' f.length).bind
        Outcome.value? = some value

theorem CutOk.independent {cut : List Nat} (ok : CutOk cut) (pos : 0 < cut.sum)
    (sml : cut.sum < 2 ^ 32) : SegmentationIndependent cut := by
  intro target f pkt pkt' wirelen junk junk' acc isCut holds
  subst isCut
  rw [sum_cutOf] at pos sml
  have buflen : (UInt32.ofNat (cutOf pkt.chain).sum).toNat = mlength pkt.chain := by
    rw [sum_cutOf, UInt32.toNat_ofNat', Nat.mod_eq_of_lt sml]
  apply bpfFilter_alike target acc
  exact readsAlike_of_cutOk ok holds rfl rfl buflen pos

/-- A bad cut has a non-empty segment whose successor is empty or ends before
a word that lies inside the packet does. -/
theorem exists_badWindow (bad : ¬ CutOk (cutOf chain)) :
    ∃ pre m m0 tl, chain = pre ++ m :: m0 :: tl ∧ 0 < m.m_len ∧
      (m0.m_len = 0 ∨ ∃ r, 0 < r ∧ r ≤ m.m_len ∧ 4 ≤ r + mlength (m0 :: tl) ∧
        r + m0.m_len < 4) := by
  induction chain with
  | nil => exact absurd trivial bad
  | cons m tl ih =>
    by_cases tailOk : CutOk (cutOf tl)
    · have badHead : ¬ (0 < m.m_len → ∀ n0 ∈ (cutOf tl).head?, 0 < n0 ∧
          ∀ r ∈ [1, 2, 3], r ≤ m.m_len → 4 ≤ r + (cutOf tl).sum → 4 ≤ r + n0) :=
        fun headOk => bad ⟨headOk, tailOk⟩
      cases tl with
      | nil => simp [cutOf] at badHead
      | cons m0 back =>
        refine ⟨[], m, m0, back, rfl, ?_⟩
        rw [sum_cutOf] at badHead
        simp only [cutOf, map_cons, head?_cons, mem_def, some.injEq]
          at badHead
        by_contra fine
        apply badHead
        rintro pos n0 rfl
        refine ⟨by omega, ?_⟩
        intro r mem short suff
        by_contra ends
        have hin : 0 < r := by
          simp only [mem_cons, not_mem_nil, or_false] at mem
          omega
        exact fine ⟨pos, Or.inr ⟨r, hin, short, suff, by omega⟩⟩
    · obtain ⟨pre, m', m0, back, rst, window⟩ := ih tailOk
      exact ⟨m :: pre, m', m0, back, by rw [rst, cons_append], window⟩

/-- A chain with a given cut: zeros in the packet and ones behind every empty
segment. -/
theorem exists_zeroChain {cut : List Nat} (bnd : ∀ n ∈ cut, n ≤ intMax) :
    ∃ chain : List Mbuf, cutOf chain = cut ∧ Holds chain (fun _ => 0) ∧
      ∀ m ∈ chain, m.data 0 = if m.m_len = 0 then 1 else 0 := by
  induction cut with
  | nil =>
    refine ⟨[], rfl, ?_, by simp⟩
    intro i below
    simp [mlength] at below
  | cons n tl ih =>
    obtain ⟨chain, isCut, holds, memory⟩ :=
      ih (forall_mem_cons.mp bnd).2
    let m : Mbuf := ⟨0, fun _ => if n = 0 then 1 else 0, n, bnd n mem_cons_self⟩
    refine ⟨m :: chain, ?_, ?_, ?_⟩
    · rw [← isCut]
      rfl
    · intro i below
      by_cases lt : i < n
      · rw [getElem?_mbytes_head m chain lt]
        have nonempty : n ≠ 0 := by omega
        simp [m, nonempty]
      rw [getElem?_mbytes_tail m chain (by show n ≤ i; omega)]
      apply holds
      rw [mlength] at below
      have len : m.m_len = n := rfl
      omega
    · simpa [m] using memory

/-- Load `size` bytes at `k`, then return as `last` says. -/
def probe (size : Size) (k : UInt32) (last : BpfInsn) : List BpfInsn :=
  [bpfStmt (Op.ldAbs size).code k, last]

def probeValue (op : Op) (value : UInt32) : Option UInt32 → UInt32
  | none => 0
  | some a => if op = .retA then a else value

section Probe

variable {size : Size} {k v : UInt32} {op : Op}

theorem probe_accepted (ret : op = .retA ∨ op = .retK) :
    bpfValidate (probe size k (bpfStmt op.code v)) = true := by
  have load : ∀ st, validateInsn (none : Option (BpfCtx Unit)) 2 0
      (bpfStmt (Op.ldAbs size).code k) st = some st := by
    intro st
    rw [validateInsn_of_decode (Op.decode_code (.ldAbs size))]
    rfl
  have last : ∀ st, validateInsn (none : Option (BpfCtx Unit)) 2 1
      (bpfStmt op.code v) st = some st := by
    intro st
    rw [validateInsn_of_decode (Op.decode_code op)]
    rcases ret with rfl | rfl <;> rfl
  have loop : ∀ st, validateLoop (none : Option (BpfCtx Unit)) 2 0
      (probe size k (bpfStmt op.code v)) st = true := by
    simp [probe, validateLoop, load, last]
  have returning : ¬ (op.code ≠ bpfRet ||| bpfK ∧ op.code ≠ bpfRet ||| bpfA) := by
    rcases ret with rfl | rfl <;> decide
  rw [bpfValidate, bpfValidateExt]
  show (if op.code ≠ bpfRet ||| bpfK ∧ op.code ≠ bpfRet ||| bpfA then false else _) = true
  rw [if_neg returning]
  exact loop _

theorem bpfFilter_probe (target : Target) (ret : op = .retA ∨ op = .retK) (pkt : Pkt)
    (wirelen buflen : UInt32) (junk : Nat → UInt32) :
    (bpfFilter target (some (probe size k (bpfStmt op.code v))) pkt wirelen buflen junk 2).bind
      value? = some (probeValue op v
        (ldAbs size pkt.bytes ⟨pkt, wirelen.toNat, buflen.toNat, junk⟩ k)) := by
  have fst : filterStep target none (probe size k (bpfStmt op.code v)) pkt.bytes
      (filterStart ⟨pkt, wirelen.toNat, buflen.toNat, junk⟩ ()) =
      FilterState.setA (filterStart ⟨pkt, wirelen.toNat, buflen.toNat, junk⟩ ())
        (ldAbs size pkt.bytes ⟨pkt, wirelen.toNat, buflen.toNat, junk⟩ k) := by
    simp [filterStep, probe, filterStart, bpfStmt, Op.decode_code, execOp]
  simp only [bpfFilter, bpfFilterExt]
  cases loads : ldAbs size pkt.bytes ⟨pkt, wirelen.toNat, buflen.toNat, junk⟩ k with
  | none =>
    rw [loads] at fst
    rw [run_done fst]
    rfl
  | some a =>
    rw [loads] at fst
    rw [run_next fst]
    rcases ret with rfl | rfl <;>
      simp [run, filterStep, probe, filterStart, bpfStmt, Op.decode_code, execOp,
        FilterState.ret, value?, probeValue]

end Probe

/-- A cut is visible when some load from a chain with this cut tells the two
layouts of its packet apart. -/
theorem not_independent_of_load {chain : List Mbuf} {p : Nat → UInt8} (holds : Holds chain p)
    {op : Op} (ret : op = .retA ∨ op = .retK) {size : Size} {k v : UInt32}
    (pos : 0 < mlength chain) (sml : mlength chain < 2 ^ 32)
    (ne : probeValue op v (mX size chain k.toNat) ≠
      probeValue op v (flatRead size p (mlength chain) k.toNat)) :
    ¬ SegmentationIndependent (cutOf chain) := by
  intro independent
  obtain ⟨res, fromChain, fromFlat⟩ := independent ⟨fun _ _ => 0, fun _ _ => 0⟩
    (probe size k (bpfStmt op.code v)) ⟨p, chain⟩ ⟨p, []⟩ 0 (fun _ => 0) (fun _ => 0)
    (probe_accepted ret) rfl holds
  have len : (probe size k (bpfStmt op.code v)).length = 2 := rfl
  have buflen : (UInt32.ofNat (cutOf chain).sum).toNat = mlength chain := by
    rw [sum_cutOf, UInt32.toNat_ofNat', Nat.mod_eq_of_lt sml]
  rw [len, bpfFilter_probe _ ret, ldAbs_chain _ rfl] at fromChain
  rw [len, bpfFilter_probe _ ret, ldAbs_flat _ (by simp only; omega)] at fromFlat
  simp only [buflen] at fromFlat
  rw [← fromFlat] at fromChain
  exact ne (some.inj fromChain)

section Window

variable {pre : List Mbuf} {m m0 : Mbuf} {tl : List Mbuf}

section

variable (sml : mlength (pre ++ m :: m0 :: tl) < 2 ^ 32)

include sml

private theorem toNat_windowOffset (lt : j < m.m_len) :
    (UInt32.ofNat (mlength pre + j)).toNat = mlength pre + j := by
  rw [mlength_append, mlength] at sml
  rw [UInt32.toNat_ofNat', Nat.mod_eq_of_lt (by omega)]

/-- A two-byte load from the last byte before an empty segment returns the
byte behind that segment. -/
theorem not_independent_of_empty (holds : Holds (pre ++ m :: m0 :: tl) (fun _ => 0))
    (pos : 0 < m.m_len) (tail : m0.data 0 = 1) :
    ¬ SegmentationIndependent (cutOf (pre ++ m :: m0 :: tl)) := by
  have off' := toNat_windowOffset sml (by omega : m.m_len - 1 < m.m_len)
  have found := mindex_append pre m (m0 :: tl) (by omega : m.m_len - 1 < m.m_len)
  have lastByte : m.data (m.m_len - 1) = 0 := holds.tail.head (by omega)
  have nonempty : 0 < mlength (pre ++ m :: m0 :: tl) := by
    rw [mlength_append, mlength]
    omega
  apply @not_independent_of_load _ _ holds .retA (Or.inl rfl) .h
    (UInt32.ofNat (mlength pre + (m.m_len - 1))) 0 nonempty sml
  have fromChain : mX .h (pre ++ m :: m0 :: tl) (mlength pre + (m.m_len - 1)) = some 1 := by
    simp only [mX, mXhalf, found]
    rw [if_neg (by omega), lastByte, tail]
    rfl
  rw [off', fromChain]
  by_cases lt : mlength pre + (m.m_len - 1) + 2 ≤ mlength (pre ++ m :: m0 :: tl)
  · rw [flatRead_inside lt]
    exact (by decide : (1 : UInt32) ≠ be16 0 0)
  · rw [flatRead_beyond (by simp only [width]; omega)]
    decide

theorem not_independent_of_short (holds : Holds (pre ++ m :: m0 :: tl) (fun _ => 0)) {r : Nat}
    (pos : 0 < r) (left : r ≤ m.m_len) (inPacket : 4 ≤ r + mlength (m0 :: tl))
    (short : r + m0.m_len < 4) : ¬ SegmentationIndependent (cutOf (pre ++ m :: m0 :: tl)) := by
  have off' := toNat_windowOffset sml (by omega : m.m_len - r < m.m_len)
  have found := mindex_append pre m (m0 :: tl) (by omega : m.m_len - r < m.m_len)
  have total : mlength (pre ++ m :: m0 :: tl) =
      mlength pre + (m.m_len + mlength (m0 :: tl)) := by
    rw [mlength_append, mlength]
  apply @not_independent_of_load _ _ holds .retK (Or.inr rfl) .w
    (UInt32.ofNat (mlength pre + (m.m_len - r))) 1 (by omega) sml
  have fromChain : mX .w (pre ++ m :: m0 :: tl) (mlength pre + (m.m_len - r)) = none := by
    simp only [mX, mXword, found]
    rw [if_neg (by omega), if_pos (by omega)]
  rw [off', fromChain, flatRead_inside (by simp only [width]; omega)]
  exact (by decide : (0 : UInt32) ≠ 1)

end

end Window

/-- Filters cannot see the cut of a non-empty packet exactly when every short
window of it lies in one segment or in two adjacent non-empty ones. -/
theorem segmentationIndependent_iff (cut : List Nat) (bounded : ∀ n ∈ cut, n ≤ intMax)
    (positive : 0 < cut.sum) (sml : cut.sum < 2 ^ 32) :
    SegmentationIndependent cut ↔ CutOk cut := by
  constructor
  · intro independent
    by_contra bad
    obtain ⟨chain, isCut, holds, memory⟩ := exists_zeroChain bounded
    subst isCut
    rw [sum_cutOf] at sml
    obtain ⟨pre, m, m0, tl, chn, nonempty, window⟩ := exists_badWindow bad
    subst chn
    rcases window with empty | ⟨r, rPositive, left, inPacket, short⟩
    · have tail := memory m0 (by simp)
      rw [if_pos empty] at tail
      exact not_independent_of_empty sml holds nonempty tail independent
    · exact not_independent_of_short sml holds rPositive left inPacket short independent
  · intro ok
    exact ok.independent positive sml

theorem segmentationIndependent_iff_twoSegments :
    (∀ n ∈ [14, 20], n ≤ intMax) ∧ 0 < [14, 20].sum ∧ [14, 20].sum < 2 ^ 32 ∧
      SegmentationIndependent [14, 20] :=
  ⟨by decide, by decide, by decide,
    (segmentationIndependent_iff [14, 20] (by decide) (by decide) (by decide)).mpr (by decide)⟩

def threeSegments : List Mbuf :=
  [⟨0, fun _ => 1, 1, by decide⟩, ⟨0, fun _ => 2, 1, by decide⟩,
    ⟨0, fun i => if i = 0 then 3 else 4, 2, by decide⟩]

/-- The same bytes in three short mbufs give another value. -/
theorem segmentation_threeSegments :
    ¬ ∀ (target : Target) (f : List BpfInsn) (pkt pkt' : Pkt) (wirelen : UInt32)
      (junk junk' : Nat → UInt32),
      bpfValidate f = true → 0 < mlength pkt.chain → mlength pkt.chain < 2 ^ 32 →
      Holds pkt.chain pkt'.bytes →
      (bpfFilter target (some f) pkt wirelen 0 junk f.length).bind Outcome.value? =
        (bpfFilter target (some f) pkt' wirelen (UInt32.ofNat (mlength pkt.chain)) junk'
          f.length).bind Outcome.value? := by
  intro claim
  have same := claim ⟨fun _ _ => 0, fun _ _ => 0⟩ (probe .w 0 (bpfStmt Op.retA.code 0))
    ⟨fun _ => 0, threeSegments⟩ ⟨fun i => UInt8.ofNat (i + 1), []⟩ 4 (fun _ => 0) (fun _ => 0)
    (by decide) (by decide) (by decide) (by unfold Holds; decide)
  revert same
  decide

end NetBSD.Net.Bpf
