import NetBSD.Net.Npf.Inet
import NetBSD.Net.Npf.Rwr

/-!
Owns `npf_fetch_tcpopts` with a maximum segment size to fetch or to write, and what
the walk over the options touches. Every option kind but two tells its length and is
checked against the option area; the fixed-size ones are taken to be whole, so an area
that ends inside one of them leads the walk behind the TCP header.
-/

namespace NetBSD.Net.Npf

open NetBSD.Netinet NetBSD.Net.Npf.Rwr List Option

/-- The walk at label `next`: the options left, the current offset, how far to advance, `*mss` when
`mss` is not null, `*wscale` and the packet. -/
structure Walk where
  topts_len : Nat
  off : Nat
  step : Nat
  mss : Option UInt16
  wscale : Nat
  bytes : List UInt8
deriving DecidableEq, Repr

/-- What one round of the walk does: it ends with `ok`, or asks whether any options are left. -/
inductive Turn where
  | done (ok : Bool) (walk : Walk)
  | more (walk : Walk)
deriving DecidableEq, Repr

section Parser

variable (e : Endian) (contig : Nat → Nat → Bool)

/-- The copy of `TCPOPT_MAXSEG`: a given `*mss` is written, else the option is fetched. -/
def copyMss (walk : Walk) (nptr : Nat) : Walk :=
  match walk.mss with
  | none => walk
  | some mss =>
    if mss ≠ 0 then { walk with bytes := store walk.bytes nptr (bytes16 e mss) }
    else { walk with mss := some (loadWord e walk.bytes nptr) }

/-- A call of `nbuf_advance`, and `goto done` with a false `ok` when it fails. -/
def advanced (walk : Walk) (off len ensure : Nat) (next : Nat → Turn) : Turn :=
  (nbufAdvance ⟨walk.bytes, contig⟩ off len ensure).elim (.done false walk) next

def tcpoptTurn (walk : Walk) : Turn :=
  advanced contig walk walk.off walk.step 1 fun off =>
    let val := walk.bytes.getD off 0
    if val = tcpoptEol then .done true walk
    else if val = tcpoptNop then
      .more { walk with topts_len := walk.topts_len - 1, off := off, step := 1 }
    else if val = tcpoptMaxseg then
      advanced contig walk off 2 2 fun off =>
        .more { copyMss e walk off with
          topts_len := walk.topts_len - tcpolenMaxseg, off := off, step := 2 }
    else if val = tcpoptWindow then
      advanced contig walk off 2 1 fun off =>
        let val := (walk.bytes.getD off 0).toNat
        .more { walk with
          wscale := if tcpMaxWinshift < val then tcpMaxWinshift else val
          topts_len := walk.topts_len - tcpolenWindow, off := off, step := 1 }
    else
      advanced contig walk off 1 1 fun off =>
        let val := (walk.bytes.getD off 0).toNat
        if val < 2 ∨ walk.topts_len < val then .done false walk
        else .more { walk with topts_len := walk.topts_len - val, off := off, step := val - 1 }

def tcpoptLoop : (fuel : Nat) → Walk → Option (Bool × Walk)
  | 0, _ => none
  | fuel + 1, walk =>
    match tcpoptTurn e contig walk with
    | .done ok walk => some (ok, walk)
    | .more walk => if 0 < walk.topts_len then tcpoptLoop fuel walk else some (true, walk)

/-- `npf_fetch_tcpopts`: the value it returns, and the walk's `mss`, `wscale` and packet at its
end. -/
def npfFetchTcpoptsMss (npc : NpfCache) (mss : Option UInt16) (wscale : Nat) :
    Option (Bool × Walk) :=
  let toptsLen := npc.npc_tcp.th_off.val * 4 - sizeofTcphdr
  let walk : Walk :=
    ⟨toptsLen, 0, npc.npc_hlen.toNat + sizeofTcphdr, mss, wscale, npc.npc_nbuf.bytes⟩
  if toptsLen = 0 then some (false, walk)
  else tcpoptLoop e npc.npc_nbuf.contig toptsLen walk

end Parser

/-- The first of some options is not cut off inside its fixed size. -/
def Whole (opts : List UInt8) : Prop :=
  (opts.getD 0 0 = tcpoptMaxseg → tcpolenMaxseg ≤ opts.length) ∧
    (opts.getD 0 0 = tcpoptWindow → tcpolenWindow ≤ opts.length)

/-- The options behind the first one, when the walk goes on. -/
def nextOptions (opts : List UInt8) : Option (List UInt8) :=
  let kind := opts.getD 0 0
  let len := (opts.getD 1 0).toNat
  if kind = tcpoptEol then none
  else if kind = tcpoptNop then some (opts.drop 1)
  else if kind = tcpoptMaxseg then some (opts.drop tcpolenMaxseg)
  else if kind = tcpoptWindow then some (opts.drop tcpolenWindow)
  else if len < 2 ∨ opts.length < len then none
  else some (opts.drop len)

/-- The walk over some options comes to one that is cut off. -/
inductive Truncated : List UInt8 → Prop where
  | here {opts : List UInt8} (cutOff : ¬ Whole opts) : Truncated opts
  | later {opts rest : List UInt8} (next : nextOptions opts = some rest)
      (truncated : Truncated rest) : Truncated opts

/-! ### One round -/

variable {bytes : List UInt8} {next : Nat → Turn} {off ensure len : Nat}

section Round

variable {e : Endian} {contig contig' : Nat → Nat → Bool} {walk walk' : Walk}
  {tail : List UInt8} {ok : Bool}

/-- The walk in a packet that goes on behind it. -/
def Walk.extend (walk : Walk) (tail : List UInt8) : Walk :=
  { walk with bytes := walk.bytes ++ tail }

@[simp] theorem Walk.extend_off : (walk.extend tail).off = walk.off := rfl

@[simp] theorem Walk.extend_step : (walk.extend tail).step = walk.step := rfl

@[simp] theorem Walk.extend_topts_len : (walk.extend tail).topts_len = walk.topts_len := rfl

@[simp] theorem Walk.extend_bytes : (walk.extend tail).bytes = walk.bytes ++ tail := rfl

def Turn.extend (tail : List UInt8) : Turn → Turn
  | .done ok walk => .done ok (walk.extend tail)
  | .more walk => .more (walk.extend tail)

/-- The options still to be read end where the packet does. -/
structure Fits (walk : Walk) : Prop where
  ends : walk.off + walk.step + walk.topts_len = walk.bytes.length
  positive : 0 < walk.topts_len

def Walk.opts (walk : Walk) : List UInt8 := walk.bytes.drop (walk.off + walk.step)

theorem nbufAdvance_append {bytes : List UInt8} {off len ensure : Nat}
    (lt : off + len < bytes.length) (area : off + len + ensure ≤ bytes.length)
    (agree : ∀ off len, off + len ≤ bytes.length → contig off len = contig' off len) :
    nbufAdvance ⟨bytes ++ tail, contig⟩ off len ensure =
      nbufAdvance ⟨bytes, contig'⟩ off len ensure := by
  have prev : ¬ bytes.length + tail.length ≤ off + len := by omega
  have before' : ¬ bytes.length ≤ off + len := by omega
  simp only [nbufAdvance, length_append, if_neg prev, if_neg before', agree _ _ area]

theorem nbufAdvance_one (lt : off + len < bytes.length) :
    nbufAdvance ⟨bytes, contig⟩ off len 1 = some (off + len) := by
  unfold nbufAdvance
  dsimp only
  rw [if_neg (by omega), if_pos (le_refl 1)]

theorem getD_append_inside (lt : off < bytes.length) :
    (bytes ++ tail).getD off 0 = bytes.getD off 0 := by
  rw [getD_eq_getElem?_getD, getD_eq_getElem?_getD, getElem?_append_left lt]

theorem Walk.opts_getD (walk : Walk) (i : Nat) :
    walk.opts.getD i 0 = walk.bytes.getD (walk.off + walk.step + i) 0 := by
  rw [Walk.opts, getD_eq_getElem?_getD, getD_eq_getElem?_getD, getElem?_drop]

theorem Fits.opts_length (fits : Fits walk) : walk.opts.length = walk.topts_len := by
  have ends := fits.ends
  rw [Walk.opts, length_drop]
  omega

theorem nbufAdvance_cases (nbuf : Nbuf) (off len ensure : Nat) :
    nbufAdvance nbuf off len ensure = none ∨
      nbufAdvance nbuf off len ensure = some (off + len) := by
  unfold nbufAdvance
  split
  · exact .inl rfl
  · split
    · exact .inr rfl
    · split
      · exact .inr rfl
      · exact .inl rfl

theorem advanced_some (hsome : nbufAdvance ⟨walk.bytes, contig⟩ off len ensure = some (off + len)) :
    advanced contig walk off len ensure next = next (off + len) := by
  rw [advanced, hsome, elim_some]

theorem advanced_more (more : advanced contig walk off len ensure next = .more walk') :
    next (off + len) = .more walk' := by
  cases nbufAdvance_cases ⟨walk.bytes, contig⟩ off len ensure with
  | inl hn =>
    rw [advanced, hn] at more
    cases more
  | inr hsome => rwa [advanced_some hsome] at more

theorem advanced_extend {next' : Nat → Turn} (lt : off + len < walk.bytes.length)
    (area : off + len + ensure ≤ walk.bytes.length)
    (agree : ∀ off len, off + len ≤ walk.bytes.length → contig off len = contig' off len)
    (same : next (off + len) = (next' (off + len)).extend tail) :
    advanced contig (walk.extend tail) off len ensure next =
      (advanced contig' walk off len ensure next').extend tail := by
  have advance := @nbufAdvance_append contig contig' tail walk.bytes off len ensure lt area agree
  cases nbufAdvance_cases ⟨walk.bytes, contig'⟩ off len ensure with
  | inl hn =>
    rw [hn] at advance
    rw [advanced, advanced, hn]
    exact congrArg (fun fnd => Option.elim fnd _ next) advance
  | inr hsome =>
    rw [hsome] at advance
    rw [advanced_some advance, advanced_some hsome]
    exact same

theorem loadWord_append (lt : off + 2 ≤ bytes.length) :
    loadWord e (bytes ++ tail) off = loadWord e bytes off := by
  unfold loadWord load16 bytesOf
  rw [getD_append_inside (by omega), getD_append_inside (by omega)]

theorem store_append {new : List UInt8} (lt : off + new.length ≤ bytes.length) :
    store (bytes ++ tail) off new = store bytes off new ++ tail := by
  unfold store
  rw [take_append_of_le_length (by omega), drop_append_of_le_length lt,
    append_assoc, append_assoc]

theorem copyMss_extend {nptr : Nat} (lt : nptr + 2 ≤ walk.bytes.length) :
    copyMss e (walk.extend tail) nptr = (copyMss e walk nptr).extend tail := by
  unfold copyMss
  cases isMss : walk.mss with
  | none => simp only [Walk.extend, isMss]
  | some mss =>
    by_cases toWrite : mss ≠ 0
    · simp only [Walk.extend, isMss, if_pos toWrite]
      rw [store_append (by rw [bytes16_length]; exact lt)]
    · simp only [Walk.extend, isMss, if_neg toWrite]
      rw [loadWord_append lt]

/-- Bytes behind the options change no turn. -/
theorem tcpoptTurn_extend (fits : Fits walk) (whole : Whole walk.opts)
    (agree : ∀ off len, off + len ≤ walk.bytes.length → contig off len = contig' off len) :
    tcpoptTurn e contig (walk.extend tail) = (tcpoptTurn e contig' walk).extend tail := by
  have ends := fits.ends
  have pos := fits.positive
  have maxseg := whole.1
  have window := whole.2
  rw [fits.opts_length, Walk.opts_getD] at maxseg window
  have lt : walk.off + walk.step < walk.bytes.length := by omega
  have kind : (walk.bytes ++ tail).getD (walk.off + walk.step) 0 =
      walk.bytes.getD (walk.off + walk.step) 0 := getD_append_inside lt
  unfold tcpoptTurn
  rw [Walk.extend_off, Walk.extend_step, Walk.extend_topts_len, Walk.extend_bytes]
  refine advanced_extend lt lt agree ?_
  rw [kind]
  generalize walk.bytes.getD (walk.off + walk.step) 0 = val at *
  by_cases isEol : val = tcpoptEol
  · rw [if_pos isEol, if_pos isEol]
    rfl
  rw [if_neg isEol, if_neg isEol]
  by_cases isNop : val = tcpoptNop
  · rw [if_pos isNop, if_pos isNop]
    rfl
  rw [if_neg isNop, if_neg isNop]
  by_cases isMaxseg : val = tcpoptMaxseg
  · have long := maxseg isMaxseg
    rw [tcpolenMaxseg] at long
    rw [if_pos isMaxseg, if_pos isMaxseg]
    refine advanced_extend (by omega) (by omega) agree ?_
    rw [copyMss_extend (by omega)]
    rfl
  rw [if_neg isMaxseg, if_neg isMaxseg]
  by_cases win : val = tcpoptWindow
  · have long := window win
    rw [tcpolenWindow] at long
    have lt : walk.off + walk.step + 2 < walk.bytes.length := by omega
    rw [if_pos win, if_pos win]
    refine advanced_extend lt lt agree ?_
    rw [getD_append_inside lt]
    rfl
  rw [if_neg win, if_neg win]
  by_cases last : walk.topts_len = 1
  · -- The length byte is missing, or it is behind the header and more than what is left.
    have missing : nbufAdvance ⟨walk.bytes, contig'⟩ (walk.off + walk.step) 1 1 = none :=
      if_pos (by dsimp only; omega)
    have stop : advanced contig' walk (walk.off + walk.step) 1 1 (fun off =>
        if (walk.bytes.getD off 0).toNat < 2 ∨ walk.topts_len < (walk.bytes.getD off 0).toNat then
          Turn.done false walk
        else Turn.more { walk with
          topts_len := walk.topts_len - (walk.bytes.getD off 0).toNat, off := off
          step := (walk.bytes.getD off 0).toNat - 1 }) = Turn.done false walk := by
      rw [advanced, missing, elim_none]
    rw [stop]
    cases nbufAdvance_cases ⟨walk.bytes ++ tail, contig⟩ (walk.off + walk.step) 1 1 with
    | inl hn =>
      exact congrArg (fun fnd => Option.elim fnd _ _) hn
    | inr hsome =>
      rw [advanced_some hsome, if_pos (by omega)]
      rfl
  have lt : walk.off + walk.step + 1 < walk.bytes.length := by omega
  refine advanced_extend lt lt agree ?_
  rw [getD_append_inside lt]
  generalize (walk.bytes.getD (walk.off + walk.step + 1) 0).toNat = len
  by_cases badLength : len < 2 ∨ walk.topts_len < len
  · rw [if_pos badLength, if_pos badLength]
    rfl
  · rw [if_neg badLength, if_neg badLength]
    rfl

theorem copyMss_length {nptr : Nat} (lt : nptr + 2 ≤ walk.bytes.length) :
    (copyMss e walk nptr).bytes.length = walk.bytes.length := by
  unfold copyMss
  cases walk.mss with
  | none => rfl
  | some mss =>
    dsimp only
    split
    · exact store_length (by rw [bytes16_length]; exact lt)
    · rfl

theorem drop_copyMss {nptr : Nat} (lt : nptr + 2 ≤ walk.bytes.length) (bhd : nptr + 2 ≤ off) :
    (copyMss e walk nptr).bytes.drop off = walk.bytes.drop off := by
  unfold copyMss
  cases walk.mss with
  | none => rfl
  | some mss =>
    dsimp only
    split
    · apply ext_getElem?
      intro i
      rw [getElem?_drop, getElem?_drop]
      exact getElem?_store_of_ge (by rw [bytes16_length]; exact lt)
        (by rw [bytes16_length]; omega)
    · rfl

/-- What is left after a round that goes on past a whole option. -/
structure Passed (walk walk' : Walk) : Prop where
  ends : walk'.off + walk'.step + walk'.topts_len = walk.bytes.length
  sameLength : walk'.bytes.length = walk.bytes.length
  shorter : walk'.topts_len < walk.topts_len
  next : nextOptions walk.opts = some walk'.opts

/-- A turn that goes on has passed one whole option. -/
theorem tcpoptTurn_more (fits : Fits walk) (whole : Whole walk.opts)
    (isMore : tcpoptTurn e contig walk = .more walk') : Passed walk walk' := by
  have ends := fits.ends
  have pos := fits.positive
  have maxseg := whole.1
  have window := whole.2
  have hlen := fits.opts_length
  rw [Walk.opts_getD] at maxseg window
  obtain ⟨tgt, isTarget⟩ : ∃ tgt, nextOptions walk.opts = tgt := ⟨_, rfl⟩
  have next := isTarget
  unfold nextOptions at next
  rw [hlen, Walk.opts_getD, Walk.opts_getD] at next
  have more := advanced_more isMore
  generalize walk.bytes.getD (walk.off + walk.step) 0 = val at *
  by_cases isEol : val = tcpoptEol
  · rw [if_pos isEol] at more
    cases more
  rw [if_neg isEol] at more next
  by_cases isNop : val = tcpoptNop
  · rw [if_pos isNop] at more next
    cases more
    refine ⟨?_, rfl, ?_, ?_⟩
    · dsimp only
      omega
    · dsimp only
      omega
    · rw [isTarget, ← next, Walk.opts, Walk.opts, drop_drop]
  rw [if_neg isNop] at more next
  by_cases isMaxseg : val = tcpoptMaxseg
  · have long := maxseg isMaxseg
    rw [if_pos isMaxseg] at more next
    have copy := advanced_more more
    cases copy
    rw [tcpolenMaxseg] at long
    refine ⟨?_, copyMss_length (by omega), ?_, ?_⟩
    · dsimp only [tcpolenMaxseg]
      omega
    · dsimp only [tcpolenMaxseg]
      omega
    · rw [isTarget, ← next, Walk.opts, Walk.opts, drop_drop, drop_copyMss (by omega) (by dsimp only; omega)]
      rfl
  rw [if_neg isMaxseg] at more next
  by_cases win : val = tcpoptWindow
  · have long := window win
    rw [if_pos win] at more next
    have scaled := advanced_more more
    cases scaled
    rw [tcpolenWindow] at long
    refine ⟨?_, rfl, ?_, ?_⟩
    · dsimp only [tcpolenWindow]
      omega
    · dsimp only [tcpolenWindow]
      omega
    · rw [isTarget, ← next, Walk.opts, drop_drop]
      rfl
  rw [if_neg win] at more next
  have sized := advanced_more more
  generalize (walk.bytes.getD (walk.off + walk.step + 1) 0).toNat = len at *
  by_cases badLength : len < 2 ∨ walk.topts_len < len
  · rw [if_pos badLength] at sized
    cases sized
  rw [if_neg badLength] at sized next
  cases sized
  refine ⟨?_, rfl, ?_, ?_⟩
  · dsimp only
    omega
  · dsimp only
    omega
  · rw [isTarget, ← next, Walk.opts, drop_drop]
    congr 2
    dsimp only
    omega

theorem advanced_none (hn : nbufAdvance ⟨walk.bytes, contig⟩ off len ensure = none) :
    advanced contig walk off len ensure next = .done false walk := by
  rw [advanced, hn, elim_none]

theorem copyMss_mss {nptr : Nat} {mss : UInt16} (toWrite : mss ≠ 0) (given : walk.mss = some mss) :
    copyMss e walk nptr = { walk with bytes := store walk.bytes nptr (bytes16 e mss) } := by
  unfold copyMss
  rw [given]
  exact if_pos toWrite

theorem copyMss_null (given : walk.mss = none) (nptr : Nat) : copyMss e walk nptr = walk := by
  rw [copyMss, given]

/-- What a round does in general: it ends with the walk as it is, or uses up options and keeps an
`mss` that is to be written, or a null one and then the packet. -/
structure Shorter (walk walk' : Walk) : Prop where
  shorter : walk'.topts_len < walk.topts_len
  given : ∀ mss, mss ≠ 0 → walk.mss = some mss → walk'.mss = some mss
  null : walk.mss = none → walk'.mss = none ∧ walk'.bytes = walk.bytes

theorem advanced_round
    (round : (∃ ok, next (off + len) = .done ok walk) ∨
      ∃ walk', next (off + len) = .more walk' ∧ Shorter walk walk') :
    (∃ ok, advanced contig walk off len ensure next = .done ok walk) ∨
      ∃ walk', advanced contig walk off len ensure next = .more walk' ∧ Shorter walk walk' := by
  cases nbufAdvance_cases ⟨walk.bytes, contig⟩ off len ensure with
  | inl hn => exact .inl ⟨false, advanced_none hn⟩
  | inr hsome => rwa [advanced_some hsome]

/-- Every turn ends the walk or shortens it. -/
theorem tcpoptTurn_round (pos : 0 < walk.topts_len) :
    (∃ ok, tcpoptTurn e contig walk = .done ok walk) ∨
      ∃ walk', tcpoptTurn e contig walk = .more walk' ∧ Shorter walk walk' := by
  apply advanced_round
  generalize walk.bytes.getD (walk.off + walk.step) 0 = val
  by_cases isEol : val = tcpoptEol
  · exact .inl ⟨true, if_pos isEol⟩
  rw [if_neg isEol]
  by_cases isNop : val = tcpoptNop
  · exact .inr ⟨_, if_pos isNop, by dsimp only; omega, fun _ _ given => given,
      fun null => ⟨null, rfl⟩⟩
  rw [if_neg isNop]
  by_cases isMaxseg : val = tcpoptMaxseg
  · rw [if_pos isMaxseg]
    apply advanced_round
    refine .inr ⟨_, rfl, ?_, fun mss toWrite given => ?_, fun null => ?_⟩
    · dsimp only [tcpolenMaxseg]
      omega
    · rw [copyMss_mss toWrite given]
      exact given
    · rw [copyMss_null null]
      exact ⟨null, rfl⟩
  rw [if_neg isMaxseg]
  by_cases win : val = tcpoptWindow
  · rw [if_pos win]
    apply advanced_round
    refine .inr ⟨_, rfl, ?_, fun _ _ given => given, fun null => ⟨null, rfl⟩⟩
    dsimp only [tcpolenWindow]
    omega
  rw [if_neg win]
  apply advanced_round
  generalize (walk.bytes.getD (walk.off + walk.step + 1) 0).toNat = len
  by_cases badLength : len < 2 ∨ walk.topts_len < len
  · exact .inl ⟨false, if_pos badLength⟩
  · exact .inr ⟨_, if_neg badLength, by dsimp only; omega, fun _ _ given => given,
      fun null => ⟨null, rfl⟩⟩

theorem nbufAdvance_full (lt : off + len < bytes.length)
    (isContig : contig (off + len) ensure = true) :
    nbufAdvance ⟨bytes, contig⟩ off len ensure = some (off + len) := by
  have prev : ¬ bytes.length ≤ off + len := by omega
  simp only [nbufAdvance, if_neg prev, isContig, if_true, ite_self]

/-- Where every area can be made contiguous, a round ends at no whole option with options behind
it. -/
theorem tcpoptTurn_ne_done {tl : List UInt8} (fits : Fits walk) (whole : Whole walk.opts)
    (full : ∀ off len, off + len ≤ walk.bytes.length → contig off len = true)
    (next : nextOptions walk.opts = some tl) : tcpoptTurn e contig walk ≠ .done ok walk := by
  have ends := fits.ends
  have pos := fits.positive
  have maxseg := whole.1
  have window := whole.2
  have hlen := fits.opts_length
  unfold nextOptions at next
  rw [Walk.opts_getD] at maxseg window
  rw [hlen, Walk.opts_getD, Walk.opts_getD] at next
  unfold tcpoptTurn
  rw [advanced_some (nbufAdvance_one (by omega))]
  generalize walk.bytes.getD (walk.off + walk.step) 0 = val at *
  by_cases isEol : val = tcpoptEol
  · rw [if_pos isEol] at next
    cases next
  rw [if_neg isEol] at next ⊢
  by_cases isNop : val = tcpoptNop
  · rw [if_pos isNop]
    exact Turn.noConfusion
  rw [if_neg isNop] at next ⊢
  by_cases isMaxseg : val = tcpoptMaxseg
  · have long := maxseg isMaxseg
    rw [tcpolenMaxseg] at long
    rw [if_pos isMaxseg, advanced_some (nbufAdvance_full (by omega) (full _ _ (by omega)))]
    exact Turn.noConfusion
  rw [if_neg isMaxseg] at next ⊢
  by_cases win : val = tcpoptWindow
  · have long := window win
    rw [tcpolenWindow] at long
    rw [if_pos win, advanced_some (nbufAdvance_one (by omega))]
    exact Turn.noConfusion
  rw [if_neg win] at next ⊢
  by_cases goodLength : (walk.bytes.getD (walk.off + walk.step + 1) 0).toNat < 2 ∨
      walk.topts_len < (walk.bytes.getD (walk.off + walk.step + 1) 0).toNat
  · rw [if_pos goodLength] at next
    cases next
  · rw [advanced_some (nbufAdvance_one (by omega)), if_neg goodLength]
    exact Turn.noConfusion

theorem tcpoptTurn_next {tl : List UInt8} (fits : Fits walk) (whole : Whole walk.opts)
    (full : ∀ off len, off + len ≤ walk.bytes.length → contig off len = true)
    (next : nextOptions walk.opts = some tl) :
    ∃ walk', tcpoptTurn e contig walk = .more walk' ∧ Passed walk walk' ∧ Shorter walk walk' ∧
      walk'.opts = tl := by
  cases @tcpoptTurn_round e contig walk fits.positive with
  | inl done =>
    obtain ⟨ok, done⟩ := done
    exact absurd done (tcpoptTurn_ne_done fits whole full next)
  | inr more =>
    obtain ⟨walk', more, round⟩ := more
    have past := tcpoptTurn_more fits whole more
    rw [past.next] at next
    exact ⟨walk', more, past, round, some.inj next⟩

end Round

/-! ### The whole walk -/

section Walking

variable {e : Endian} {contig contig' : Nat → Nat → Bool} {walk walk' : Walk}
  {tail : List UInt8} {fuel : Nat} {ok : Bool}

theorem tcpoptLoop_done (done : tcpoptTurn e contig walk = .done ok walk') :
    tcpoptLoop e contig (fuel + 1) walk = some (ok, walk') := by
  rw [tcpoptLoop, done]

theorem tcpoptLoop_more (more : tcpoptTurn e contig walk = .more walk') :
    tcpoptLoop e contig (fuel + 1) walk =
      if 0 < walk'.topts_len then tcpoptLoop e contig fuel walk' else some (true, walk') := by
  rw [tcpoptLoop, more]

theorem tcpoptLoop_terminates (pos : 0 < walk.topts_len) (suff : walk.topts_len ≤ fuel) :
    ∃ res, tcpoptLoop e contig fuel walk = some res := by
  induction fuel generalizing walk with
  | zero => omega
  | succ fuel ih =>
    cases @tcpoptTurn_round e contig walk pos with
    | inl done =>
      obtain ⟨ok, done⟩ := done
      exact ⟨_, tcpoptLoop_done done⟩
    | inr more =>
      obtain ⟨walk', more, round⟩ := more
      have lt := round.shorter
      rw [tcpoptLoop_more more]
      by_cases left : 0 < walk'.topts_len
      · rw [if_pos left]
        exact ih left (by omega)
      · rw [if_neg left]
        exact ⟨_, rfl⟩

theorem whole_of_notTruncated {opts : List UInt8} (notTruncated : ¬ Truncated opts) : Whole opts :=
  Classical.byContradiction fun cutOff => notTruncated (.here cutOff)

theorem Passed.fits (past : Passed walk walk') (left : 0 < walk'.topts_len) : Fits walk' :=
  ⟨past.sameLength ▸ past.ends, left⟩

/-- Without a truncated option, what is behind the header is not looked at and stays. -/
theorem tcpoptLoop_extend (fits : Fits walk) (notTruncated : ¬ Truncated walk.opts)
    (agree : ∀ off len, off + len ≤ walk.bytes.length → contig off len = contig' off len) :
    tcpoptLoop e contig fuel (walk.extend tail) =
        (tcpoptLoop e contig' fuel walk).map (fun res => (res.1, res.2.extend tail)) ∧
      ∀ ok walk', tcpoptLoop e contig' fuel walk = some (ok, walk') →
        walk'.bytes.length = walk.bytes.length := by
  induction fuel generalizing walk with
  | zero => exact ⟨rfl, nofun⟩
  | succ fuel ih =>
    have extended := @tcpoptTurn_extend e contig contig' walk tail fits
      (whole_of_notTruncated notTruncated) agree
    cases @tcpoptTurn_round e contig' walk fits.positive with
    | inl done =>
      obtain ⟨ok, turn⟩ := done
      rw [turn] at extended
      rw [tcpoptLoop_done turn, tcpoptLoop_done extended]
      refine ⟨rfl, fun ok res isRes => ?_⟩
      cases isRes
      rfl
    | inr more =>
      obtain ⟨walk', turn, _⟩ := more
      have past := tcpoptTurn_more fits (whole_of_notTruncated notTruncated) turn
      rw [turn] at extended
      rw [tcpoptLoop_more turn, tcpoptLoop_more extended, Walk.extend_topts_len]
      by_cases left : 0 < walk'.topts_len
      · rw [if_pos left, if_pos left]
        have tl := ih (past.fits left)
          (fun truncated => notTruncated (.later past.next truncated))
          (fun off len area => agree off len (past.sameLength ▸ area))
        rw [past.sameLength] at tl
        exact tl
      · rw [if_neg left, if_neg left]
        refine ⟨rfl, fun ok res isRes => ?_⟩
        cases isRes
        exact past.sameLength

/-! ### Truncated options -/

def zeros : List UInt8 := List.replicate 4 0

def ones : List UInt8 := List.replicate 4 1

/-- The walk writes behind the header, or returns a scale from there. -/
def Leaks (e : Endian) (contig : Nat → Nat → Bool) (fuel : Nat) (walk : Walk) : Prop :=
  (∃ ok walk', tcpoptLoop e contig fuel (walk.extend zeros) = some (ok, walk') ∧
    walk'.bytes.drop walk.bytes.length ≠ zeros) ∨
  ∃ ok walk' ok' walk'', tcpoptLoop e contig fuel (walk.extend zeros) = some (ok, walk') ∧
    tcpoptLoop e contig fuel (walk.extend ones) = some (ok', walk'') ∧
    walk'.wscale ≠ walk''.wscale

theorem bytes16_ones : bytes16 e 257 = [1, 1] := by
  cases e <;> rfl

theorem getElem?_store_second {b c : UInt8} (lt : off + 2 ≤ bytes.length) :
    (store bytes off [b, c])[off + 1]? = some c := by
  have hlen : (bytes.take off).length = off := length_take_of_le (by omega)
  unfold store
  rw [List.getElem?_append_right (by omega), hlen, Nat.add_sub_cancel_left]
  rfl

theorem extend_kind (fits : Fits walk) : nbufAdvance ⟨(walk.extend tail).bytes, contig⟩
      (walk.extend tail).off (walk.extend tail).step 1 = some (walk.off + walk.step) ∧
    (walk.extend tail).bytes.getD (walk.off + walk.step) 0 = walk.opts.getD 0 0 := by
  have ends := fits.ends
  have pos := fits.positive
  rw [Walk.opts_getD]
  refine ⟨nbufAdvance_one ?_, getD_append_inside (by omega)⟩
  rw [Walk.extend_bytes, Walk.extend_off, Walk.extend_step, length_append]
  omega

theorem leaks_maxseg (fits : Fits walk) (isMaxseg : walk.opts.getD 0 0 = tcpoptMaxseg)
    (short : walk.topts_len < tcpolenMaxseg) (given : walk.mss = some 257)
    (full : ∀ off len, off + len ≤ walk.bytes.length + 4 → contig off len = true) :
    Leaks e contig (fuel + 1) walk := by
  have ends := fits.ends
  rw [tcpolenMaxseg] at short
  have hlen : (walk.bytes ++ zeros).length = walk.bytes.length + 4 := length_append
  obtain ⟨advance, kind⟩ := @extend_kind contig walk zeros fits
  have advance' : nbufAdvance ⟨(walk.extend zeros).bytes, contig⟩ (walk.off + walk.step) 2 2 =
      some (walk.off + walk.step + 2) := by
    refine nbufAdvance_full ?_ (full _ _ (by omega))
    rw [Walk.extend_bytes]
    omega
  have turn : tcpoptTurn e contig (walk.extend zeros) = .more { walk.extend zeros with
        bytes := store (walk.bytes ++ zeros) (walk.off + walk.step + 2) [1, 1]
        topts_len := walk.topts_len - tcpolenMaxseg
        off := walk.off + walk.step + 2
        step := 2 } := by
    unfold tcpoptTurn
    rw [advanced_some advance]
    dsimp only [Walk.extend_off, Walk.extend_step]
    rw [kind, isMaxseg, if_neg (by decide), if_neg (by decide), if_pos rfl, advanced_some advance',
      @copyMss_mss e (walk.extend zeros) _ 257 (by decide) given, bytes16_ones]
    rfl
  refine .inl ⟨true, _, (tcpoptLoop_more turn).trans (if_neg ?_), fun same => ?_⟩
  · dsimp only [tcpolenMaxseg]
    omega
  have wrote := @getElem?_store_second (walk.bytes ++ zeros) (walk.off + walk.step + 2) 1 1
    (by omega)
  have plc : walk.off + walk.step + 2 + 1 = walk.bytes.length + (3 - walk.topts_len) := by omega
  rw [plc, ← getElem?_drop, same, zeros, getElem?_replicate_of_lt (by omega)] at wrote
  exact absurd wrote (by decide)

theorem tcpoptLoop_window {b : UInt8} (fits : Fits walk)
    (win : walk.opts.getD 0 0 = tcpoptWindow) (short : walk.topts_len < tcpolenWindow)
    (sml : b.toNat ≤ tcpMaxWinshift) :
    ∃ walk', tcpoptLoop e contig (fuel + 1) (walk.extend (List.replicate 4 b)) =
      some (true, walk') ∧ walk'.wscale = b.toNat := by
  have ends := fits.ends
  rw [tcpolenWindow] at short
  have hlen : (walk.bytes ++ List.replicate 4 b).length = walk.bytes.length + 4 :=
    length_append
  obtain ⟨advance, kind⟩ := @extend_kind contig walk (List.replicate 4 b) fits
  have advance' : nbufAdvance ⟨(walk.extend (List.replicate 4 b)).bytes, contig⟩
      (walk.off + walk.step) 2 1 = some (walk.off + walk.step + 2) := by
    refine nbufAdvance_one ?_
    rw [Walk.extend_bytes]
    omega
  have scale : (walk.bytes ++ List.replicate 4 b).getD (walk.off + walk.step + 2) 0 = b := by
    rw [getD_eq_getElem?_getD, getElem?_append_right (by omega),
      getElem?_replicate_of_lt (by omega), getD_some]
  have turn : tcpoptTurn e contig (walk.extend (List.replicate 4 b)) =
      .more { walk.extend (List.replicate 4 b) with
        wscale := b.toNat
        topts_len := walk.topts_len - tcpolenWindow
        off := walk.off + walk.step + 2
        step := 1 } := by
    unfold tcpoptTurn
    rw [advanced_some advance]
    dsimp only [Walk.extend_off, Walk.extend_step]
    rw [kind, win, if_neg (by decide), if_neg (by decide), if_neg (by decide), if_pos rfl,
      advanced_some advance', Walk.extend_bytes, scale, if_neg (not_lt.mpr sml)]
    rfl
  refine ⟨_, (tcpoptLoop_more turn).trans (if_neg ?_), rfl⟩
  dsimp only [tcpolenWindow]
  omega

theorem leaks_cutOff (fits : Fits walk) (cutOff : ¬ Whole walk.opts)
    (suff : walk.topts_len ≤ fuel) (given : walk.mss = some 257)
    (full : ∀ off len, off + len ≤ walk.bytes.length + 4 → contig off len = true) :
    Leaks e contig fuel walk := by
  have pos := fits.positive
  obtain ⟨fuel, rfl⟩ : ∃ tl, fuel = tl + 1 := ⟨fuel - 1, by omega⟩
  unfold Whole at cutOff
  rw [fits.opts_length, not_and_or, Classical.not_imp, Classical.not_imp, not_le,
    not_le] at cutOff
  cases cutOff with
  | inl maxseg => exact leaks_maxseg fits maxseg.1 maxseg.2 given full
  | inr window =>
    obtain ⟨walk', eq0, zero⟩ := @tcpoptLoop_window e contig walk fuel 0 fits window.1 window.2
      (by decide)
    obtain ⟨walk'', isOne, one⟩ := @tcpoptLoop_window e contig walk fuel 1 fits window.1 window.2
      (by decide)
    refine .inr ⟨true, walk', true, walk'', eq0, isOne, ?_⟩
    rw [zero, one]
    decide

theorem not_truncated_nil : ¬ Truncated [] := by
  intro truncated
  cases truncated with
  | here cutOff => exact cutOff ⟨fun isMaxseg => absurd isMaxseg (by decide),
      fun win => absurd win (by decide)⟩
  | later next _ =>
    cases next

/-- The walk over options that are cut short leaks. -/
theorem leaks_of_truncated {opts : List UInt8} (truncated : Truncated opts) :
    ∀ {walk : Walk} {fuel : Nat}, walk.opts = opts → Fits walk → walk.topts_len ≤ fuel →
      walk.mss = some 257 →
      (∀ off len, off + len ≤ walk.bytes.length + 4 → contig off len = true) →
      Leaks e contig fuel walk := by
  induction truncated with
  | here cutOff =>
    intro walk fuel isOpts fits suff given full
    exact leaks_cutOff fits (isOpts ▸ cutOff) suff given full
  | @later opts tl next truncated ih =>
    intro walk fuel isOpts fits suff given full
    have pos := fits.positive
    by_cases whole : Whole walk.opts
    · obtain ⟨fuel, rfl⟩ : ∃ tl, fuel = tl + 1 := ⟨fuel - 1, by omega⟩
      obtain ⟨walk', more, past, round, rst⟩ := @tcpoptTurn_next e contig walk tl fits
        whole (fun off len area => full off len (by omega)) (isOpts ▸ next)
      have lt := round.shorter
      have left : 0 < walk'.topts_len := by
        apply pos_of_ne_zero
        intro no
        have isEnd := past.ends
        rw [← rst, Walk.opts, drop_of_length_le (by rw [past.sameLength]; omega)]
          at truncated
        exact not_truncated_nil truncated
      have leaks := @ih walk' fuel rst (past.fits left) (by omega)
        (round.given 257 (by decide) given) (past.sameLength ▸ full)
      have step : ∀ tail, tcpoptLoop e contig (fuel + 1) (walk.extend tail) =
          tcpoptLoop e contig fuel (walk'.extend tail) := by
        intro tail
        have extended := @tcpoptTurn_extend e contig contig walk tail fits whole fun _ _ _ => rfl
        rw [more] at extended
        rw [tcpoptLoop_more extended, Walk.extend_topts_len, if_pos left]
      unfold Leaks at leaks ⊢
      rwa [step, step, ← past.sameLength]
    · exact leaks_cutOff fits whole suff given full

end Walking

/-! ### The calls -/

/-- The calls on two packets that agree on the first bytes, and on which areas of these can be made
contiguous, return the same, and leave what is behind those bytes. -/
def OnlyHeader (e : Endian) (npc : NpfCache) (header : List UInt8) : Prop :=
  ∀ (tail tail' : List UInt8) (contig contig' : Nat → Nat → Bool),
    (∀ off len, off + len ≤ header.length → contig off len = contig' off len) →
    ∀ (mss : Option UInt16) (wscale : Nat), ∃ ok walk walk',
      npfFetchTcpoptsMss e { npc with npc_nbuf := ⟨header ++ tail, contig⟩ } mss wscale =
        some (ok, walk) ∧
      npfFetchTcpoptsMss e { npc with npc_nbuf := ⟨header ++ tail', contig'⟩ } mss wscale =
        some (ok, walk') ∧
      walk.mss = walk'.mss ∧ walk.wscale = walk'.wscale ∧
      walk.bytes.drop header.length = tail ∧ walk'.bytes.drop header.length = tail'

def startWalk (npc : NpfCache) (header : List UInt8) (mss : Option UInt16) (wscale : Nat) : Walk :=
  ⟨npc.npc_tcp.th_off.val * 4 - sizeofTcphdr, 0, npc.npc_hlen.toNat + sizeofTcphdr, mss, wscale,
    header⟩

section Calls

variable {e : Endian} {npc : NpfCache} {header : List UInt8} {mss : Option UInt16} {wscale : Nat}

theorem npfFetchTcpoptsMss_options {tail : List UInt8} {contig : Nat → Nat → Bool}
    (options : npc.npc_tcp.th_off.val * 4 - sizeofTcphdr ≠ 0) :
    npfFetchTcpoptsMss e { npc with npc_nbuf := ⟨header ++ tail, contig⟩ } mss wscale =
      tcpoptLoop e contig (npc.npc_tcp.th_off.val * 4 - sizeofTcphdr)
        ((startWalk npc header mss wscale).extend tail) :=
  if_neg options

theorem startWalk_fits (isHeader : header.length = npc.npc_hlen.toNat + npc.npc_tcp.th_off.val * 4)
    (options : npc.npc_tcp.th_off.val * 4 - sizeofTcphdr ≠ 0) :
    Fits (startWalk npc header mss wscale) := by
  constructor
  · dsimp only [startWalk]
    omega
  · exact pos_of_ne_zero options

theorem startWalk_opts : (startWalk npc header mss wscale).opts =
    header.drop (npc.npc_hlen.toNat + sizeofTcphdr) := by
  rw [startWalk, Walk.opts, zero_add]

theorem npfFetchTcpoptsMss_terminates (e : Endian) (npc : NpfCache) (mss : Option UInt16)
    (wscale : Nat) : ∃ res, npfFetchTcpoptsMss e npc mss wscale = some res := by
  by_cases options : npc.npc_tcp.th_off.val * 4 - sizeofTcphdr = 0
  · exact ⟨_, if_pos options⟩
  · obtain ⟨res, isRes⟩ := @tcpoptLoop_terminates e npc.npc_nbuf.contig
      (startWalk npc npc.npc_nbuf.bytes mss wscale) _ (pos_of_ne_zero options) (le_refl _)
    exact ⟨res, (if_neg options).trans isRes⟩

theorem onlyHeader_of_notTruncated
    (isHeader : header.length = npc.npc_hlen.toNat + npc.npc_tcp.th_off.val * 4)
    (notTruncated : ¬ Truncated (header.drop (npc.npc_hlen.toNat + sizeofTcphdr))) :
    OnlyHeader e npc header := by
  intro tail tail' contig contig' agree mss wscale
  by_cases options : npc.npc_tcp.th_off.val * 4 - sizeofTcphdr = 0
  · exact ⟨false, _, _, if_pos options, if_pos options, rfl, rfl, drop_left, drop_left⟩
  have fits := @startWalk_fits npc header mss wscale isHeader options
  rw [← @startWalk_opts npc header mss wscale] at notTruncated
  obtain ⟨⟨ok, walk⟩, isRes⟩ := @tcpoptLoop_terminates e contig' _ _ fits.positive
    (le_refl (startWalk npc header mss wscale).topts_len)
  have fst := @tcpoptLoop_extend e contig contig' _ tail
    (startWalk npc header mss wscale).topts_len fits notTruncated agree
  have snd := @tcpoptLoop_extend e contig' contig' _ tail'
    (startWalk npc header mss wscale).topts_len fits notTruncated fun _ _ _ => rfl
  have hlen := fst.2 ok walk isRes
  rw [isRes] at fst snd
  have bhd (tail : List UInt8) : (walk.bytes ++ tail).drop header.length = tail :=
    drop_left' hlen
  exact ⟨ok, walk.extend tail, walk.extend tail',
    (npfFetchTcpoptsMss_options options).trans fst.1,
    (npfFetchTcpoptsMss_options options).trans snd.1, rfl, rfl, bhd tail, bhd tail'⟩

theorem notTruncated_of_onlyHeader
    (isHeader : header.length = npc.npc_hlen.toNat + npc.npc_tcp.th_off.val * 4)
    (only : OnlyHeader e npc header) :
    ¬ Truncated (header.drop (npc.npc_hlen.toNat + sizeofTcphdr)) := by
  intro truncated
  by_cases options : npc.npc_tcp.th_off.val * 4 - sizeofTcphdr = 0
  · rw [drop_of_length_le (by omega)] at truncated
    exact not_truncated_nil truncated
  have fits := @startWalk_fits npc header (some 257) 0 isHeader options
  have leaks := @leaks_of_truncated e
    (fun off len => decide (off + len ≤ header.length + 4)) _ truncated _ _
    (@startWalk_opts npc header (some 257) 0) fits (le_refl _) rfl
    fun off len area => decide_eq_true area
  obtain ⟨ok, walk, walk', first, snd, _, sameScale, kept, _⟩ := only zeros ones
    (fun off len => decide (off + len ≤ header.length + 4))
    (fun off len => decide (off + len ≤ header.length + 4)) (fun _ _ _ => rfl) (some 257) 0
  rw [npfFetchTcpoptsMss_options options] at first snd
  cases leaks with
  | inl wrote =>
    obtain ⟨ok', res, isRes, changed⟩ := wrote
    cases first.symm.trans isRes
    exact changed kept
  | inr scales =>
    obtain ⟨_, _, _, _, fst, h2, differ⟩ := scales
    cases first.symm.trans fst
    cases snd.symm.trans h2
    exact differ sameScale

/-- The call ends on every packet, and touches nothing but the headers if and only if no option is
cut off by the end of the TCP header. -/
theorem npfFetchTcpoptsMss_onlyHeader_iff (e : Endian) (npc : NpfCache) (header : List UInt8)
    (isHeader : header.length = npc.npc_hlen.toNat + npc.npc_tcp.th_off.val * 4) :
    (∀ nbuf mss wscale, ∃ result,
      npfFetchTcpoptsMss e { npc with npc_nbuf := nbuf } mss wscale = some result) ∧
    (OnlyHeader e npc header ↔ ¬ Truncated (header.drop (npc.npc_hlen.toNat + sizeofTcphdr))) :=
  ⟨fun _ mss wscale => npfFetchTcpoptsMss_terminates e _ mss wscale,
    ⟨notTruncated_of_onlyHeader isHeader, onlyHeader_of_notTruncated isHeader⟩⟩

end Calls

/-- A cached SYN with four bytes of options behind an IPv4 header. -/
def synCache : NpfCache where
  npc_ip := .none
  npc_hlen := 20
  npc_tcp := ⟨0, 0, 6, thSyn, 0⟩
  npc_nbuf := ⟨[], fun _ _ => true⟩

/-- Its headers, with these options. -/
def synHeader (opts : List UInt8) : List UInt8 := List.replicate 40 0 ++ opts

theorem npfFetchTcpoptsMss_onlyHeader_syn : (∀ nbuf mss wscale, ∃ result,
      npfFetchTcpoptsMss .little { synCache with npc_nbuf := nbuf } mss wscale = some result) ∧
    (OnlyHeader .little synCache (synHeader [2, 4, 5, 180]) ↔
      ¬ Truncated ((synHeader [2, 4, 5, 180]).drop (synCache.npc_hlen.toNat + sizeofTcphdr))) :=
  npfFetchTcpoptsMss_onlyHeader_iff .little synCache (synHeader [2, 4, 5, 180]) (by decide)

/-- Options that end inside a window scale take it from the data behind, and those that end inside a
maximum segment size have it written there. -/
theorem options_left : ¬ OnlyHeader .little synCache (synHeader [1, 1, 3, 3]) ∧
    ¬ OnlyHeader .little synCache (synHeader [1, 1, 2, 4]) := by
  constructor
  · intro only
    obtain ⟨ok, walk, walk', fst, snd, _, sameScale, _⟩ :=
      only [0] [7] (fun _ _ => true) (fun _ _ => true) (fun _ _ _ => rfl) none 0
    have zero : (npfFetchTcpoptsMss .little { synCache with
        npc_nbuf := ⟨synHeader [1, 1, 3, 3] ++ [0], fun _ _ => true⟩ } none 0).map
          (fun res => res.2.wscale) = some 0 := by decide
    have isSeven : (npfFetchTcpoptsMss .little { synCache with
        npc_nbuf := ⟨synHeader [1, 1, 3, 3] ++ [7], fun _ _ => true⟩ } none 0).map
          (fun res => res.2.wscale) = some 7 := by decide
    rw [fst, map_some, sameScale] at zero
    rw [snd] at isSeven
    exact absurd (zero.symm.trans isSeven) (by decide)
  · intro only
    obtain ⟨ok, walk, _, fst, _, _, _, kept, _⟩ :=
      only [80, 79] [] (fun _ _ => true) (fun _ _ => true) (fun _ _ _ => rfl) (some 0xb405) 0
    have isWritten : (npfFetchTcpoptsMss .little { synCache with
        npc_nbuf := ⟨synHeader [1, 1, 2, 4] ++ [80, 79], fun _ _ => true⟩ } (some 0xb405) 0).map
          (fun res => res.2.bytes.drop 44) = some [5, 180] := by decide
    rw [fst] at isWritten
    exact absurd (kept.symm.trans (some.inj isWritten)) (by decide)

/-! ### A null `mss` -/

section Null

variable {e : Endian} {contig : Nat → Nat → Bool} {walk : Walk} {fuel : Nat}

/-- What the tracker's parser returns after a round. -/
def nullTurn (nbuf : Nbuf) (fuel : Nat) : Turn → Bool × Nat
  | .done ok walk => (ok, walk.wscale)
  | .more walk =>
    if 0 < walk.topts_len then
      fetchTcpoptsLoop nbuf fuel walk.topts_len walk.off walk.step walk.wscale
    else (true, walk.wscale)

theorem nullTurn_advanced {nbuf : Nbuf} :
    nullTurn nbuf fuel (advanced contig walk off len ensure next) =
      (nbufAdvance ⟨walk.bytes, contig⟩ off len ensure).elim (false, walk.wscale)
        fun off => nullTurn nbuf fuel (next off) := by
  unfold advanced
  cases nbufAdvance ⟨walk.bytes, contig⟩ off len ensure <;> rfl

theorem fetchTcpoptsLoop_turn (given : walk.mss = none) :
    fetchTcpoptsLoop ⟨walk.bytes, contig⟩ (fuel + 1) walk.topts_len walk.off walk.step walk.wscale =
      nullTurn ⟨walk.bytes, contig⟩ fuel (tcpoptTurn e contig walk) := by
  rw [fetchTcpoptsLoop, tcpoptTurn, nullTurn_advanced]
  cases nbufAdvance ⟨walk.bytes, contig⟩ walk.off walk.step 1 with
  | none => rfl
  | some off =>
    rw [elim_some]
    dsimp only
    generalize walk.bytes.getD off 0 = val
    by_cases isEol : val = tcpoptEol
    · rw [if_pos isEol, if_pos isEol]
      rfl
    rw [if_neg isEol, if_neg isEol]
    by_cases isNop : val = tcpoptNop
    · rw [if_pos isNop, if_pos isNop]
      rfl
    rw [if_neg isNop, if_neg isNop]
    by_cases isMaxseg : val = tcpoptMaxseg
    · rw [if_pos isMaxseg, if_pos isMaxseg, nullTurn_advanced]
      cases nbufAdvance ⟨walk.bytes, contig⟩ off 2 2 with
      | none => rfl
      | some off =>
        rw [elim_some, copyMss_null given]
        rfl
    rw [if_neg isMaxseg, if_neg isMaxseg]
    by_cases win : val = tcpoptWindow
    · rw [if_pos win, if_pos win, nullTurn_advanced]
      cases nbufAdvance ⟨walk.bytes, contig⟩ off 2 1 <;> rfl
    rw [if_neg win, if_neg win, nullTurn_advanced]
    cases nbufAdvance ⟨walk.bytes, contig⟩ off 1 1 with
    | none => rfl
    | some off =>
      rw [elim_some]
      dsimp only
      generalize (walk.bytes.getD off 0).toNat = len
      by_cases badLength : len < 2 ∨ walk.topts_len < len
      · rw [if_pos badLength, if_pos badLength]
        rfl
      · rw [if_neg badLength, if_neg badLength]
        rfl

theorem tcpoptLoop_null (given : walk.mss = none) (pos : 0 < walk.topts_len)
    (suff : walk.topts_len ≤ fuel) :
    (tcpoptLoop e contig fuel walk).map (fun res => (res.1, res.2.wscale)) =
      some (fetchTcpoptsLoop ⟨walk.bytes, contig⟩ fuel walk.topts_len walk.off walk.step
        walk.wscale) := by
  induction fuel generalizing walk with
  | zero => omega
  | succ fuel ih =>
    rw [@fetchTcpoptsLoop_turn e contig walk fuel given]
    cases @tcpoptTurn_round e contig walk pos with
    | inl done =>
      obtain ⟨ok, done⟩ := done
      rw [tcpoptLoop_done done, done]
      rfl
    | inr more =>
      obtain ⟨walk', more, round⟩ := more
      have lt := round.shorter
      obtain ⟨stillNull, sameBytes⟩ := round.null given
      rw [tcpoptLoop_more more, more, nullTurn]
      by_cases left : 0 < walk'.topts_len
      · rw [if_pos left, if_pos left, ih stillNull left (by omega), sameBytes]
      · rw [if_neg left, if_neg left, map_some]

theorem npfFetchTcpoptsMss_null (e : Endian) (npc : NpfCache) (wscale : Nat) :
    (npfFetchTcpoptsMss e npc none wscale).map (fun res => (res.1, res.2.wscale)) =
      some (npfFetchTcpopts npc wscale) := by
  unfold npfFetchTcpoptsMss npfFetchTcpopts
  by_cases options : npc.npc_tcp.th_off.val * 4 - sizeofTcphdr = 0
  · rw [if_pos options, if_pos options]
    rfl
  · rw [if_neg options, if_neg options]
    exact tcpoptLoop_null rfl (pos_of_ne_zero options) (le_refl _)

end Null

end NetBSD.Net.Npf
