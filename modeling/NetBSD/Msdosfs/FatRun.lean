import NetBSD.Msdosfs.FatFile
import NetBSD.Machine.Trace

/-!
Owns `extendfile`, `detrunc` and `freeclusterchain` as operations on a file: what each does to the
chain of the file and to the rest of the FAT.
-/

namespace NetBSD.Msdosfs

open List Option

section Extend

variable {geo : Geometry} {pmp : Msdosfsmount} {dep : Denode} {cs : List Nat} {usec : Nat}

theorem FileState.linked (st : FileState geo pmp dep cs) (notNew : dep.startCluster ≠ 0) :
    cs ≠ [] ∧ Linked geo (pmp.fat geo) dep.startCluster cs :=
  st.chain.resolve_left fun both => notNew both.1

theorem FileState.length_lt (volume : Volume geo) (st : FileState geo pmp dep cs) :
    cs.length < fceEmpty := by
  have sml := volume.maxcluster_lt
  show cs.length < 4294967295
  rcases st.chain with ⟨_, rfl⟩ | ⟨_, link⟩
  · exact Nat.succ_pos _
  · have le := link.length_le st.nodup
    omega

/-- The cache knows the last cluster of a file with clusters. -/
def Ready (dep : Denode) : Prop := dep.startCluster ≠ 0 → dep.lastfc.frcn ≠ fceEmpty

/-- The loop adds clusters at the chain's end, as many as asked for. -/
theorem extendfileLoop_spec (volume : Volume geo) {rnds cnt : Nat} {ncp : Option Nat}
    (st : FileState geo pmp dep cs) (ready : Ready dep) : ∃ new,
    FileState geo (extendfileLoop geo usec rnds cnt ncp pmp dep).pmp
        (extendfileLoop geo usec rnds cnt ncp pmp dep).dep (cs ++ new) ∧
      FileStep geo pmp (extendfileLoop geo usec rnds cnt ncp pmp dep).pmp cs (cs ++ new) ∧
      new.length ≤ cnt ∧ (cnt ≤ rnds →
        (extendfileLoop geo usec rnds cnt ncp pmp dep).error = none → new.length = cnt) := by
  induction rnds generalizing cnt ncp pmp dep cs with
  | zero =>
    refine ⟨[], ?_, ?_, Nat.zero_le _, fun suff _ => (Nat.le_zero.mp suff).symm⟩
    · rw [append_nil]
      exact st
    · rw [append_nil]
      exact FileStep.refl
  | succ rnds ih =>
    have stop : ∃ new, FileState geo pmp dep (cs ++ new) ∧ FileStep geo pmp pmp cs (cs ++ new) ∧
        new.length = 0 := by
      refine ⟨[], ?_, ?_, rfl⟩
      · rw [append_nil]
        exact st
      · rw [append_nil]
        exact FileStep.refl
    rw [extendfileLoop]
    by_cases done : cnt = 0
    · rw [if_pos done]
      obtain ⟨new, newState, newStep, hn⟩ := stop
      exact ⟨new, newState, newStep, by omega, fun _ _ => by omega⟩
    rw [if_neg done]
    dsimp only
    generalize isRes : clusteralloc geo usec pmp _ cnt = both
    obtain ⟨res, mid⟩ := both
    rcases clusteralloc_spec volume st.usemap (pos_of_ne_zero done) isRes with
      ⟨rfl, rfl⟩ | ⟨cn, got, rfl, atMost, allocated⟩
    · obtain ⟨new, newState, newStep, hn⟩ := stop
      exact ⟨new, newState, newStep, by omega, fun _ hn => nomatch hn⟩
    dsimp only
    have pos := allocated.pos
    -- What a round does goes before what the rounds behind it do.
    have joined {later : Msdosfsmount} {laterDep : Denode} {ncp : Option Nat}
        (laterState : FileState geo later laterDep (cs ++ List.range' cn got))
        (laterStep : FileStep geo pmp later cs (cs ++ List.range' cn got))
        (isReady : Ready laterDep) : ∃ new,
        FileState geo (extendfileLoop geo usec rnds (cnt - got) ncp later laterDep).pmp
            (extendfileLoop geo usec rnds (cnt - got) ncp later laterDep).dep (cs ++ new) ∧
          FileStep geo pmp (extendfileLoop geo usec rnds (cnt - got) ncp later laterDep).pmp cs
            (cs ++ new) ∧
          new.length ≤ cnt ∧ (cnt ≤ rnds + 1 →
            (extendfileLoop geo usec rnds (cnt - got) ncp later laterDep).error = none →
            new.length = cnt) := by
      obtain ⟨new, newState, newStep, less, whole⟩ :=
        @ih later laterDep _ (cnt - got) ncp laterState isReady
      rw [append_assoc] at newState newStep
      refine ⟨List.range' cn got ++ new, newState, laterStep.trans newStep, ?_, fun suff hn => ?_⟩
      · rw [length_append, length_range']
        omega
      · rw [length_append, length_range', whole (by omega) hn]
        omega
    by_cases isNew : dep.startCluster = 0
    · rw [if_pos isNew]
      have empty : cs = [] := by
        rcases st.chain with ⟨_, empty⟩ | ⟨_, link⟩
        · exact empty
        · exact absurd isNew link.ne_zero
      subst empty
      obtain ⟨newState, newStep⟩ := extend_empty volume st allocated
      rw [zero_add]
      refine joined newState newStep fun _ => ?_
      have short := newState.length_lt volume
      rw [length_range'] at short
      exact ne_of_lt (show got - 1 < fceEmpty by omega)
    rw [if_neg isNew]
    obtain ⟨ne, link⟩ := st.linked isNew
    have used := ready isNew
    have isAt := st.cached.entries dep.lastfc (mem_cons_of_mem _ mem_cons_self) used
    have lst := st.cached.last used
    obtain ⟨pre, last, rfl⟩ : ∃ pre last, cs = pre ++ [last] :=
      ⟨_, _, (dropLast_append_getLast ne).symm⟩
    rw [length_append, length_singleton] at lst
    have isFrcn : dep.lastfc.frcn = pre.length := by omega
    rw [isFrcn, List.getElem?_append_right (Nat.le_refl _), Nat.sub_self,
      getElem?_cons_zero] at isAt
    have isLastCluster := some.inj isAt
    have lt := link.inside last (mem_append_right _ mem_cons_self)
    obtain ⟨later, isSet, wrote⟩ := @fatentry_set geo mid last volume lt.1 lt.2 cn
    rw [← isLastCluster, isSet]
    obtain ⟨newState, newStep⟩ := extend_linked volume st allocated wrote
    rw [length_append, ← isFrcn] at newState
    refine joined newState newStep fun _ => ?_
    have short := newState.length_lt volume
    rw [length_append, length_append, length_range'] at short
    exact ne_of_lt (show dep.lastfc.frcn + 1 + got - 1 < fceEmpty by omega)

theorem Cached.setLast (cached : Cached dep cs) (ne : cs ≠ []) :
    Cached { dep with lastfc := ⟨cs.length - 1, cs.getLast ne⟩ } cs where
  entries fc isIn isUsed := by
    have pos := length_pos_iff.mpr ne
    rcases mem_cons.mp isIn with rfl | isIn
    · exact cached.entries _ mem_cons_self isUsed
    · rcases mem_cons.mp isIn with rfl | isIn
      · dsimp only
        rw [getElem?_eq_getElem (by omega), getLast_eq_getElem]
      · exact cached.entries fc (mem_cons_of_mem _ (mem_cons_of_mem _ isIn)) isUsed
  last _ := Nat.sub_add_cancel (length_pos_iff.mpr ne)

theorem Cached.setMap (cached : Cached dep cs) {findcn fnd : Nat}
    (isAt : cs[findcn]? = some fnd) : Cached { dep with lastmap := ⟨findcn, fnd⟩ } cs where
  entries fc isIn isUsed := by
    rcases mem_cons.mp isIn with rfl | isIn
    · exact isAt
    · exact cached.entries fc (mem_cons_of_mem _ isIn) isUsed
  last := cached.last

theorem Cached.setNextToLast (cached : Cached dep cs) : Cached { dep with nexttolastfc := dep.lastfc } cs where
  entries fc isIn isUsed := by
    refine cached.entries fc ?_ isUsed
    rcases mem_cons.mp isIn with rfl | isIn
    · exact mem_cons_self
    · rcases mem_cons.mp isIn with rfl | isIn
      · exact mem_cons_of_mem _ mem_cons_self
      · rw [mem_singleton.mp isIn]
        exact mem_cons_of_mem _ mem_cons_self
  last := cached.last

/-- `extendfile` appends clusters that were free: all that are asked for, unless it fails. -/
theorem extendfile_spec (volume : Volume geo) (st : FileState geo pmp dep cs) (cnt : Nat) : ∃ new,
    FileState geo (extendfile geo usec pmp dep cnt).pmp (extendfile geo usec pmp dep cnt).dep
        (cs ++ new) ∧
      FileStep geo pmp (extendfile geo usec pmp dep cnt).pmp cs (cs ++ new) ∧
      new.length ≤ cnt ∧ ((extendfile geo usec pmp dep cnt).error = none → new.length = cnt) := by
  have loop {beg : Denode} (chn : FileChain geo (pmp.fat geo) beg cs) (cached : Cached beg cs)
      (ready : Ready beg) : ∃ new,
      FileState geo (extendfileLoop geo usec cnt cnt none pmp { beg with
            nexttolastfc := beg.lastfc }).pmp
          (extendfileLoop geo usec cnt cnt none pmp { beg with nexttolastfc := beg.lastfc }).dep
          (cs ++ new) ∧
        FileStep geo pmp (extendfileLoop geo usec cnt cnt none pmp { beg with
          nexttolastfc := beg.lastfc }).pmp cs (cs ++ new) ∧
        new.length ≤ cnt ∧ ((extendfileLoop geo usec cnt cnt none pmp { beg with
          nexttolastfc := beg.lastfc }).error = none → new.length = cnt) := by
    have startState : FileState geo pmp { beg with nexttolastfc := beg.lastfc } cs :=
      ⟨chn, st.nodup, cached.setNextToLast, st.usemap⟩
    obtain ⟨new, newState, newStep, less, whole⟩ := extendfileLoop_spec volume startState ready
    exact ⟨new, newState, newStep, less, whole (le_refl cnt)⟩
  unfold extendfile
  by_cases isRoot : dep.startCluster = 0 ∧ dep.isDirectory = true
  · rw [if_pos isRoot]
    refine ⟨[], ?_, ?_, Nat.zero_le _, fun hn => nomatch hn⟩
    · rw [append_nil]
      exact st
    · rw [append_nil]
      exact FileStep.refl
  rw [if_neg isRoot]
  by_cases isUnknown : dep.lastfc.frcn = fceEmpty ∧ dep.startCluster ≠ 0
  · rw [if_pos isUnknown]
    obtain ⟨ne, link⟩ := st.linked isUnknown.2
    have tail : cs[clustEofe]? = none :=
      getElem?_eq_none (le_of_lt (st.length_lt volume))
    rw [pcbmap_spec volume link ne st.cached, tail]
    refine @loop { dep with lastfc := ⟨cs.length - 1, cs.getLast ne⟩ } st.chain
      (st.cached.setLast ne) fun _ => ?_
    have short := st.length_lt volume
    exact ne_of_lt (show cs.length - 1 < fceEmpty by omega)
  · rw [if_neg isUnknown]
    exact loop st.chain st.cached fun notNew empty => isUnknown ⟨empty, notNew⟩

end Extend

variable {fat : Nat → UInt8}

section Truncate

variable {geo : Geometry} {pmp : Msdosfsmount} {dep : Denode} {cs : List Nat}

theorem freeclusterchain_freed (volume : Volume geo) {clu : Nat} (isFat : pmp.fat geo = fat)
    (link : Linked geo fat clu cs) (nodup : cs.Nodup) :
    Freed geo pmp (freeclusterchain geo pmp clu) cs fat :=
  freeclusterchainLoop_freed volume isFat link nodup (Nat.lt_succ_of_le (link.length_le nodup))

theorem Fatcache.purge_spec {fc : Fatcache} {n : Nat} (used : (fc.purge n).frcn ≠ fceEmpty) :
    fc.purge n = fc ∧ fc.frcn < n := by
  unfold Fatcache.purge at used ⊢
  by_cases tail : fc.frcn ≥ n
  · rw [if_pos tail] at used
    exact absurd rfl used
  · rw [if_neg tail]
    exact ⟨rfl, Nat.lt_of_not_le tail⟩

theorem Cached.cut (cached : Cached dep cs) {n : Nat} :
    ∀ fc ∈ [(dep.fcPurge n).lastmap, (dep.fcPurge n).lastfc, (dep.fcPurge n).nexttolastfc],
      fc.frcn ≠ fceEmpty → (cs.take n)[fc.frcn]? = some fc.fsrcn := by
  have kept (old : Fatcache) (isIn : old ∈ [dep.lastmap, dep.lastfc, dep.nexttolastfc])
      (used : (old.purge n).frcn ≠ fceEmpty) :
      (cs.take n)[(old.purge n).frcn]? = some (old.purge n).fsrcn := by
    obtain ⟨same, below⟩ := Fatcache.purge_spec used
    rw [same] at used ⊢
    rw [getElem?_take_of_lt below]
    exact cached.entries old isIn used
  intro fc isIn used
  rcases mem_cons.mp isIn with rfl | isIn
  · exact kept _ mem_cons_self used
  · rcases mem_cons.mp isIn with rfl | isIn
    · exact kept _ (mem_cons_of_mem _ mem_cons_self) used
    · obtain rfl := mem_singleton.mp isIn
      exact kept _ (mem_cons_of_mem _ (mem_cons_of_mem _ mem_cons_self)) used

variable {s' : Msdosfsmount}

theorem free_whole (volume : Volume geo) (st : FileState geo pmp dep cs)
    (aft : s' = if dep.startCluster ≠ 0 ∧ ¬ geo.fatKind.msdosfseof dep.startCluster = true then
      freeclusterchain geo pmp dep.startCluster else pmp) :
    Usemap geo s'.inusemap s'.freeclustercount (freeClusters geo (s'.fat geo)) ∧
      FileStep geo pmp s' cs [] := by
  subst aft
  rcases st.chain with ⟨zero, rfl⟩ | ⟨ne, link⟩
  · rw [if_neg fun both => both.1 zero]
    exact ⟨st.usemap, FileStep.refl⟩
  have lt := link.inside
  rw [if_pos ⟨link.ne_zero, link.not_eof volume ne⟩]
  have freed := freeclusterchain_freed volume rfl link st.nodup
  refine ⟨?_, fun cn isIn => absurd isIn not_mem_nil, fun cn notIn _ => ?_, freed.mirrored⟩
  · rw [freed.inusemap, freed.freeclustercount, freed.fat, freeClusters_clearRun lt]
    exact st.usemap.frees volume st.nodup
      (fun cn isIn free => link.used cn isIn (mem_freeClusters.mp free).2) lt
  · rw [freed.fat, entry_clearRun, if_neg notIn]

/-- Ending the chain at a cluster frees those behind it. -/
theorem free_behind (volume : Volume geo) {pre tl : List Nat} {last : Nat} {mid : Msdosfsmount}
    (st : FileState geo pmp dep (pre ++ last :: tl))
    (wrote : Written geo pmp mid (geo.fatKind.put (pmp.fat geo) last clustEofe))
    (aft : s' = if geo.fatKind.entry (pmp.fat geo) last ≠ 0 ∧
        ¬ geo.fatKind.msdosfseof (geo.fatKind.entry (pmp.fat geo) last) = true then
      freeclusterchain geo mid (geo.fatKind.entry (pmp.fat geo) last) else mid) :
    Linked geo (s'.fat geo) dep.startCluster (pre ++ [last]) ∧
      Usemap geo s'.inusemap s'.freeclustercount (freeClusters geo (s'.fat geo)) ∧
      FileStep geo pmp s' (pre ++ last :: tl) (pre ++ [last]) := by
  have notNil : pre ++ last :: tl ≠ [] := append_ne_nil_of_right_ne_nil _ (cons_ne_nil _ _)
  have link := (st.chain.resolve_left fun both => notNil both.2).2
  have isAt : (pre ++ last :: tl)[pre.length]? = some last := by
    rw [List.getElem?_append_right (Nat.le_refl _), Nat.sub_self, List.getElem?_cons_zero]
  have tail := link.drop isAt
  rw [drop_left] at tail
  have tail := tail.2.2.2
  obtain ⟨frontNodup, tailNodup, apart⟩ := nodup_append.mp st.nodup
  obtain ⟨notRest, restNodup⟩ := nodup_cons.mp tailNodup
  have notFront : last ∉ pre := fun isIn => apart last isIn last mem_cons_self rfl
  have lt := link.inside
  have restInside (cn : Nat) (isIn : cn ∈ tl) : clustFirst ≤ cn ∧ cn ≤ geo.maxcluster :=
    lt cn (mem_append_right _ (mem_cons_of_mem _ isIn))
  have usedLast : geo.fatKind.entry (pmp.fat geo) last ≠ 0 := tail.ne_zero
  have putLast : geo.fatKind.entry (mid.fat geo) last = clustEofe % geo.fatKind.size := by
    rw [wrote.fat, entry_put_self]
  have putOther {cn : Nat} (ne : cn ≠ last) :
      geo.fatKind.entry (mid.fat geo) cn = geo.fatKind.entry (pmp.fat geo) cn := by
    rw [wrote.fat, entry_put_of_ne _ _ ne]
  have eofUsed : clustEofe % geo.fatKind.size ≠ 0 := by
    cases geo.fatKind with
    | fat12 | fat16 | fat32 => decide
  have sameFree : freeClusters geo (mid.fat geo) = freeClusters geo (pmp.fat geo) := by
    rw [@freeClusters_sdiff geo (pmp.fat geo) (mid.fat geo) ∅
      (fun cn isIn => absurd isIn (Finset.notMem_empty _)) ?_,
      Finset.sdiff_empty]
    intro cn _
    by_cases lst : cn = last
    · rw [lst, putLast]
      exact ⟨fun zero => absurd zero eofUsed, fun zero => absurd zero usedLast⟩
    · rw [putOther lst]
  have restLinked : Linked geo (mid.fat geo) (geo.fatKind.entry (pmp.fat geo) last) tl := by
    refine tail.congr fun cn isIn => putOther fun same => ?_
    exact notRest (same ▸ isIn)
  -- The entries that the whole operation leaves: cleared behind, an end mark, the others as they were.
  have finish (clrd : s'.fat geo = clearRun geo.fatKind tl (mid.fat geo))
      (mirrored : Mirrored geo mid.dev → Mirrored geo s'.dev)
      (um : Usemap geo s'.inusemap s'.freeclustercount
        (freeClusters geo (pmp.fat geo) ∪ tl.toFinset)) :
      Linked geo (s'.fat geo) dep.startCluster (pre ++ [last]) ∧
        Usemap geo s'.inusemap s'.freeclustercount (freeClusters geo (s'.fat geo)) ∧
        FileStep geo pmp s' (pre ++ last :: tl) (pre ++ [last]) := by
    refine ⟨?_, ?_, ?_, ?_, mirrored ∘ wrote.mirrored⟩
    · refine link.redirect (fun cn isIn => ?_) rfl ?_
      · have notRest : cn ∉ tl := fun rst => apart cn isIn cn (mem_cons_of_mem _ rst) rfl
        rw [clrd, entry_clearRun, if_neg notRest]
        exact putOther fun same => notFront (same ▸ isIn)
      · show geo.fatKind.msdosfseof (geo.fatKind.entry (s'.fat geo) last) = true
        rw [clrd, entry_clearRun, if_neg notRest, putLast]
        exact msdosfseof_clustEofe _
    · rw [clrd, freeClusters_clearRun restInside, sameFree]
      exact um
    · intro cn isIn
      rcases mem_append.mp isIn with isFront | lst
      · exact .inl (mem_append_left _ isFront)
      · exact .inl (mem_append_right _ (mem_singleton.mp lst ▸ mem_cons_self))
    · intro cn notIn _
      rw [clrd, entry_clearRun, if_neg fun rst =>
        notIn (mem_append_right _ (mem_cons_of_mem _ rst))]
      exact putOther fun same => notIn (same ▸ mem_append_right _ mem_cons_self)
  have startMap := st.usemap
  rw [← wrote.inusemap, ← wrote.freeclustercount] at startMap
  cases tl with
  | nil =>
    rw [if_neg fun both => both.2 tail] at aft
    subst aft
    refine finish rfl id ?_
    rw [toFinset_nil, Finset.union_empty]
    exact startMap
  | cons head tl =>
    have notEof : ¬ geo.fatKind.msdosfseof (geo.fatKind.entry (pmp.fat geo) last) = true := by
      rw [notEof_of_le volume (tail.1 ▸ tail.2.2.1)]
      exact Bool.false_ne_true
    rw [if_pos ⟨usedLast, notEof⟩] at aft
    subst aft
    have freed := freeclusterchain_freed volume rfl restLinked restNodup
    refine finish freed.fat freed.mirrored ?_
    rw [freed.inusemap, freed.freeclustercount]
    refine startMap.frees volume restNodup (fun cn isIn free => ?_) restInside
    exact link.used cn (mem_append_right _ (mem_cons_of_mem _ isIn)) (mem_freeClusters.mp free).2

theorem clcount_pos (geo : Geometry) {len : Nat} (pos : 0 < len) :
    geo.clcount len - 1 = (len - 1) >>> geo.cnshift ∧ 0 < geo.clcount len := by
  have sizePos : 0 < 2 ^ geo.cnshift := Nat.two_pow_pos _
  unfold Geometry.clcount
  rw [Nat.shiftRight_eq_div_pow, Nat.shiftRight_eq_div_pow,
    show len + 2 ^ geo.cnshift - 1 = len - 1 + 2 ^ geo.cnshift by omega, Nat.add_div_right _ sizePos]
  exact ⟨rfl, Nat.succ_pos _⟩

theorem clcount_zero (geo : Geometry) : geo.clcount 0 = 0 := by
  have sizePos : 0 < 2 ^ geo.cnshift := Nat.two_pow_pos _
  unfold Geometry.clcount
  rw [Nat.shiftRight_eq_div_pow]
  exact Nat.div_eq_of_lt (by omega)

section

variable (volume : Volume geo) (st : FileState geo pmp dep cs)

include volume st

theorem detrunc_zero
    (aft : s' = if dep.startCluster ≠ 0 ∧ ¬ geo.fatKind.msdosfseof dep.startCluster = true then
      freeclusterchain geo pmp dep.startCluster else pmp) (size : Nat) :
    FileState geo s' (Denode.fcPurge { dep with startCluster := 0, fileSize := size } 0) [] ∧
      FileStep geo pmp s' cs [] := by
  obtain ⟨um, move⟩ := free_whole volume st aft
  have ents := st.cached.cut (n := 0)
  refine ⟨⟨.inl ⟨rfl, rfl⟩, nodup_nil, ⟨ents, fun used => ?_⟩, um⟩, move⟩
  have isAt := ents _ (mem_cons_of_mem _ mem_cons_self) used
  cases isAt

/-- A chain cut behind a cluster ends there. -/
theorem detrunc_cut {plc last : Nat} (isAt : cs[plc]? = some last) {mid : Msdosfsmount}
    (wrote : Written geo pmp mid (geo.fatKind.put (pmp.fat geo) last clustEofe))
    (aft : s' = if geo.fatKind.entry (pmp.fat geo) last ≠ 0 ∧
        ¬ geo.fatKind.msdosfseof (geo.fatKind.entry (pmp.fat geo) last) = true then
      freeclusterchain geo mid (geo.fatKind.entry (pmp.fat geo) last) else mid) (size : Nat) :
    FileState geo s' { (Denode.fcPurge { dep with
          lastmap := ⟨plc, last⟩, fileSize := size } (plc + 1)) with
        lastfc := ⟨plc, last⟩ } (cs.take (plc + 1)) ∧
      FileStep geo pmp s' cs (cs.take (plc + 1)) := by
  obtain ⟨below, isGet⟩ := List.getElem?_eq_some_iff.mp isAt
  have isSplit : cs = cs.take plc ++ last :: cs.drop (plc + 1) := by
    rw [← isGet, getElem_cons_drop, take_append_drop]
  have isTake : cs.take (plc + 1) = cs.take plc ++ [last] := by
    rw [take_succ_eq_append_getElem below, isGet]
  have splitState := st
  rw [isSplit] at splitState
  obtain ⟨link, um, move⟩ := free_behind volume splitState wrote aft
  rw [← isSplit, ← isTake] at move
  rw [← isTake] at link
  have ne : cs.take (plc + 1) ≠ [] := by
    rw [isTake]
    exact append_ne_nil_of_right_ne_nil _ (cons_ne_nil _ _)
  have lst : (cs.take (plc + 1))[plc]? = some last := by
    rw [getElem?_take_of_lt (Nat.lt_succ_self _)]
    exact isAt
  have ents := (st.cached.setMap isAt).cut (n := plc + 1)
  refine ⟨⟨.inr ⟨ne, link⟩, st.nodup.sublist (take_sublist _ _), ⟨?_, fun _ => ?_⟩, um⟩,
    move⟩
  · intro fc isIn used
    rcases mem_cons.mp isIn with rfl | isIn
    · exact ents _ mem_cons_self used
    · rcases mem_cons.mp isIn with rfl | isIn
      · exact lst
      · exact ents fc (mem_cons_of_mem _ (mem_cons_of_mem _ isIn)) used
  · rw [length_take, min_eq_left below]

/-- A truncated file keeps the front of its chain. -/
theorem detrunc_spec (len : Nat) : ∃ n,
    FileState geo (detrunc geo pmp dep len).2.1 (detrunc geo pmp dep len).2.2 (cs.take n) ∧
      FileStep geo pmp (detrunc geo pmp dep len).2.1 cs (cs.take n) ∧
      ((detrunc geo pmp dep len).1 = none → n = geo.clcount len) := by
  have bad {oth : Denode} {error : FatError} (otherState : FileState geo pmp oth cs) : ∃ n,
      FileState geo pmp oth (cs.take n) ∧ FileStep geo pmp pmp cs (cs.take n) ∧
        (some error = none → n = geo.clcount len) := by
    refine ⟨cs.length, ?_, ?_, fun hn => nomatch hn⟩
    · rw [take_length]
      exact otherState
    · rw [take_length]
      exact FileStep.refl
  unfold detrunc
  by_cases isRoot : dep.isRoot = true ∧ geo.fatKind ≠ .fat32
  · rw [if_pos isRoot]
    exact bad st
  rw [if_neg isRoot]
  by_cases zero : len = 0
  · rw [zero]
    refine ⟨0, ?_⟩
    by_cases toFree : dep.startCluster ≠ 0 ∧ ¬ geo.fatKind.msdosfseof dep.startCluster = true
    · rw [if_pos toFree]
      obtain ⟨newState, move⟩ := detrunc_zero volume st (if_pos toFree).symm 0
      exact ⟨newState, move, fun _ => (clcount_zero geo).symm⟩
    · rw [if_neg toFree]
      obtain ⟨newState, move⟩ := detrunc_zero volume st (if_neg toFree).symm 0
      exact ⟨newState, move, fun _ => (clcount_zero geo).symm⟩
  rw [if_neg zero]
  dsimp only
  by_cases isNew : dep.startCluster = 0
  · -- A file without clusters: no cluster to cut at.
    have empty : cs = [] := by
      rcases st.chain with ⟨_, empty⟩ | ⟨_, link⟩
      · exact empty
      · exact absurd isNew link.ne_zero
    have isMap : (∃ error, pcbmap geo pmp.dev dep (geo.clcount len - 1) = (.error error, dep)) ∨
        pcbmap geo pmp.dev dep (geo.clcount len - 1) = (.ok 0, dep) := by
      unfold pcbmap
      rw [if_pos isNew]
      split
      · split
        · exact .inl ⟨_, rfl⟩
        · exact .inr rfl
      · exact .inl ⟨_, rfl⟩
    rcases isMap with ⟨error, isMap⟩ | isMap
    · rw [isMap]
      exact bad st
    rw [isMap]
    refine bad ⟨st.chain, st.nodup, ?_, st.usemap⟩
    have ents := st.cached.cut (n := geo.clcount len - 1 + 1)
    subst empty
    refine ⟨ents, fun used => ?_⟩
    have isAt := ents _ (mem_cons_of_mem _ mem_cons_self) used
    cases isAt
  · obtain ⟨ne, link⟩ := st.linked isNew
    obtain ⟨isShift, pos⟩ := clcount_pos geo (pos_of_ne_zero zero)
    rw [pcbmap_spec volume link ne st.cached]
    cases isAt : cs[geo.clcount len - 1]? with
    | none => exact bad ⟨st.chain, st.nodup, st.cached.setLast ne, st.usemap⟩
    | some last =>
      dsimp only
      have lt := link.inside last (mem_of_getElem? isAt)
      obtain ⟨mid, isSet, wrote⟩ := @fatentry_getAndSet geo pmp last volume lt.1 lt.2 clustEofe
      rw [isSet, ← isShift]
      dsimp only [getD_some]
      refine ⟨geo.clcount len - 1 + 1, ?_⟩
      by_cases toFree : geo.fatKind.entry (pmp.fat geo) last ≠ 0 ∧
          ¬ geo.fatKind.msdosfseof (geo.fatKind.entry (pmp.fat geo) last) = true
      · rw [if_pos toFree]
        obtain ⟨newState, move⟩ := detrunc_cut volume st isAt wrote (if_pos toFree).symm len
        exact ⟨newState, move, fun _ => Nat.sub_add_cancel pos⟩
      · rw [if_neg toFree]
        obtain ⟨newState, move⟩ := detrunc_cut volume st isAt wrote (if_neg toFree).symm len
        exact ⟨newState, move, fun _ => Nat.sub_add_cancel pos⟩

end

end Truncate

/-!
### Files of a volume

The files of a mounted volume: operations on them in any order keep the map and the count of free
clusters in step with the FAT, the chains apart from each other, and equal copies of the FAT equal.
-/

open NetBSD.Machine

section Steps

variable {geo : Geometry} {pmp : Msdosfsmount} {files : List Denode} {chains : List (List Nat)}

/-- A mounted volume and its files. -/
structure Fs where
  pmp : Msdosfsmount
  files : List Denode

inductive FatOp where
  | extendfile (file count usec : Nat)
  | detrunc (file length : Nat)
  | freeclusterchain (file : Nat)
deriving DecidableEq, Repr

/-- What is left of a file whose chain was freed as a whole. -/
def noFile : Denode := ⟨0, false, false, 0, ⟨fceEmpty, 0⟩, ⟨fceEmpty, 0⟩, ⟨fceEmpty, 0⟩⟩

/-- An operation on a file; there is no step to a length above the file size. -/
def fatStep (geo : Geometry) (fs : Fs) : FatOp → Option Fs
  | .extendfile file count usec => fs.files[file]?.map fun dep =>
    let result := extendfile geo usec fs.pmp dep count
    ⟨result.pmp, fs.files.set file result.dep⟩
  | .detrunc file length => fs.files[file]?.bind fun dep =>
    if dep.fileSize < length then none
    else
      let result := detrunc geo fs.pmp dep length
      some ⟨result.2.1, fs.files.set file result.2.2⟩
  | .freeclusterchain file => fs.files[file]?.map fun dep =>
    ⟨freeclusterchain geo fs.pmp dep.startCluster, fs.files.set file noFile⟩

/-- The files have these chains, which end in an end mark and have no cluster in common. -/
structure Chained (geo : Geometry) (fs : Fs) (chains : List (List Nat)) : Prop where
  length : fs.files.length = chains.length
  chain : ∀ (file : Nat) dep cs, fs.files[file]? = some dep → chains[file]? = some cs →
    FileChain geo (fs.pmp.fat geo) dep cs
  nodup : ∀ cs ∈ chains, cs.Nodup
  disjoint : ∀ (file other : Nat) cs ds, file ≠ other → chains[file]? = some cs → chains[other]? = some ds →
    ∀ cn ∈ cs, cn ∉ ds

/-- The map has the bits of the clusters with entry 0 clear and no others, and the count is
theirs; the cache of each file fits its chain. -/
structure Consistent (geo : Geometry) (fs : Fs) (chains : List (List Nat)) : Prop extends
    Chained geo fs chains where
  usemap : Usemap geo fs.pmp.inusemap fs.pmp.freeclustercount (freeClusters geo (fs.pmp.fat geo))
  cached : ∀ (file : Nat) dep cs, fs.files[file]? = some dep → chains[file]? = some cs → Cached dep cs

variable {cs : List Nat} {dep : Denode}

theorem FileChain.used (chn : FileChain geo fat dep cs) :
    ∀ cn ∈ cs, geo.fatKind.entry fat cn ≠ 0 := by
  rcases chn with ⟨_, rfl⟩ | ⟨_, link⟩
  · exact fun cn isIn => absurd isIn not_mem_nil
  · exact link.used

theorem FileChain.congr {oth : Nat → UInt8} (chn : FileChain geo fat dep cs)
    (same : ∀ cn ∈ cs, geo.fatKind.entry oth cn = geo.fatKind.entry fat cn) :
    FileChain geo oth dep cs :=
  chn.imp_right fun both => ⟨both.1, both.2.congr same⟩

theorem fileChain_unique (volume : Volume geo) {tl : List Nat}
    (chn : FileChain geo fat dep cs) (oth : FileChain geo fat dep tl) : cs = tl := by
  rcases chn with ⟨zero, rfl⟩ | ⟨_, link⟩
  · rcases oth with ⟨_, rfl⟩ | ⟨_, otherLinked⟩
    · rfl
    · exact absurd zero otherLinked.ne_zero
  · rcases oth with ⟨zero, _⟩ | ⟨_, otherLinked⟩
    · exact absurd zero link.ne_zero
    · exact linked_unique volume link otherLinked

theorem chained_unique (volume : Volume geo) {fs : Fs} {tl : List (List Nat)}
    (chn : Chained geo fs chains) (oth : Chained geo fs tl) : chains = tl := by
  have eqLen : chains.length = tl.length := chn.length.symm.trans oth.length
  refine ext_getElem eqLen fun file below otherBelow => ?_
  have isFile := getElem?_eq_getElem (show file < fs.files.length by rw [chn.length]; exact below)
  exact fileChain_unique volume (chn.chain file _ _ isFile (getElem?_eq_getElem below))
    (oth.chain file _ _ isFile (getElem?_eq_getElem otherBelow))

theorem Consistent.state {fs : Fs} (good : Consistent geo fs chains) {file : Nat}
    (isFile : fs.files[file]? = some dep) (chn : chains[file]? = some cs) :
    FileState geo fs.pmp dep cs :=
  ⟨good.chain file dep cs isFile chn, good.nodup cs (mem_of_getElem? chn),
    good.cached file dep cs isFile chn, good.usemap⟩

/-- A step on one file keeps the chains of all. -/
theorem Consistent.step {fs : Fs} (good : Consistent geo fs chains) {file : Nat}
    {dep later : Denode} {cs next : List Nat} {s' : Msdosfsmount}
    (isFile : fs.files[file]? = some dep) (chn : chains[file]? = some cs)
    (st : FileState geo s' later next) (move : FileStep geo fs.pmp s' cs next) :
    Consistent geo ⟨s', fs.files.set file later⟩ (chains.set file next) := by
  have below := (List.getElem?_eq_some_iff.mp isFile).1
  have chainBelow := (List.getElem?_eq_some_iff.mp chn).1
  -- The chain of another file is not touched.
  have kept {other : Nat} {ds : List Nat} (ne : file ≠ other) (oth : chains[other]? = some ds)
      {cn : Nat} (isIn : cn ∈ ds) : cn ∉ cs ∧ cn ∉ next ∧
        geo.fatKind.entry (s'.fat geo) cn = geo.fatKind.entry (fs.pmp.fat geo) cn := by
    have notIn : cn ∉ cs := fun isCs => good.disjoint file other cs ds ne chn oth cn isCs isIn
    have isOtherFile := getElem?_eq_getElem (show other < fs.files.length by
      rw [good.length]
      exact (List.getElem?_eq_some_iff.mp oth).1)
    have used := (good.chain other _ ds isOtherFile oth).used cn isIn
    exact ⟨notIn, fun next' => (move.fresh cn next').elim notIn used, move.others cn notIn used⟩
  have setFile {other : Nat} {dep : Denode} (oth : (fs.files.set file later)[other]? = some dep) :
      (file = other ∧ later = dep) ∨ (file ≠ other ∧ fs.files[other]? = some dep) := by
    by_cases same : file = other
    · subst same
      rw [getElem?_set_self below] at oth
      exact .inl ⟨rfl, some.inj oth⟩
    · rw [getElem?_set_ne same] at oth
      exact .inr ⟨same, oth⟩
  have setChain {other : Nat} {ds : List Nat} (oth : (chains.set file next)[other]? = some ds) :
      (file = other ∧ next = ds) ∨ (file ≠ other ∧ chains[other]? = some ds) := by
    by_cases same : file = other
    · subst same
      rw [getElem?_set_self chainBelow] at oth
      exact .inl ⟨rfl, some.inj oth⟩
    · rw [getElem?_set_ne same] at oth
      exact .inr ⟨same, oth⟩
  refine ⟨⟨?_, ?_, ?_, ?_⟩, st.usemap, ?_⟩
  · show (fs.files.set file later).length = (chains.set file next).length
    rw [length_set, length_set, good.length]
  · intro other dep ds oth isOtherChain
    rcases setFile oth with ⟨same, rfl⟩ | ⟨ne, oth⟩
    · rcases setChain isOtherChain with ⟨_, rfl⟩ | ⟨ne, _⟩
      · exact st.chain
      · exact absurd same ne
    · rcases setChain isOtherChain with ⟨same, _⟩ | ⟨_, isOtherChain⟩
      · exact absurd same ne
      · exact (good.chain other dep ds oth isOtherChain).congr fun cn isIn =>
          (kept ne isOtherChain isIn).2.2
  · intro ds isIn
    rcases mem_or_eq_of_mem_set isIn with isOld | rfl
    · exact good.nodup ds isOld
    · exact st.nodup
  · intro one other ds es ne isOne oth cn isIn isOtherIn
    rcases setChain isOne with ⟨rfl, rfl⟩ | ⟨oneDiffers, isOne⟩
    · rcases setChain oth with ⟨same, _⟩ | ⟨otherDiffers, oth⟩
      · exact ne same
      · exact (kept otherDiffers oth isOtherIn).2.1 isIn
    · rcases setChain oth with ⟨rfl, rfl⟩ | ⟨_, oth⟩
      · exact (kept oneDiffers isOne isIn).2.1 isOtherIn
      · exact good.disjoint one other ds es ne isOne oth cn isIn isOtherIn
  · intro other dep ds oth isOtherChain
    rcases setFile oth with ⟨same, rfl⟩ | ⟨ne, oth⟩
    · rcases setChain isOtherChain with ⟨_, rfl⟩ | ⟨ne, _⟩
      · exact st.cached
      · exact absurd same ne
    · rcases setChain isOtherChain with ⟨same, _⟩ | ⟨_, isOtherChain⟩
      · exact absurd same ne
      · exact good.cached other dep ds oth isOtherChain

/-- How an operation changes the chains: one file gets clusters at its end, or loses them there. -/
def Changed (chains later : List (List Nat)) : FatOp → Prop
  | .extendfile file count _ => ∃ cs new, chains[file]? = some cs ∧ new.length ≤ count ∧
      later = chains.set file (cs ++ new)
  | .detrunc file _ => ∃ cs n, chains[file]? = some cs ∧ later = chains.set file (cs.take n)
  | .freeclusterchain file => later = chains.set file []

theorem free_file (volume : Volume geo) (st : FileState geo pmp dep cs) :
    FileState geo (freeclusterchain geo pmp dep.startCluster) noFile [] ∧
      FileStep geo pmp (freeclusterchain geo pmp dep.startCluster) cs [] := by
  have aft : freeclusterchain geo pmp dep.startCluster =
      if dep.startCluster ≠ 0 ∧ ¬ geo.fatKind.msdosfseof dep.startCluster = true then
        freeclusterchain geo pmp dep.startCluster else pmp := by
    rcases st.chain with ⟨zero, _⟩ | ⟨ne, link⟩
    · rw [zero]
      rfl
    rw [if_pos ⟨link.ne_zero, link.not_eof volume ne⟩]
  obtain ⟨um, move⟩ := free_whole volume st aft
  refine ⟨⟨.inl ⟨rfl, rfl⟩, nodup_nil, ⟨fun fc isIn used => ?_, fun used => absurd rfl used⟩, um⟩,
    move⟩
  have empty : fc = ⟨fceEmpty, 0⟩ := eq_of_mem_replicate (n := 3) isIn
  exact absurd (congrArg Fatcache.frcn empty) used

theorem fatStep_consistent (volume : Volume geo) {fs s' : Fs} {op : FatOp}
    (good : Consistent geo fs chains) (moved : fatStep geo fs op = some s') :
    ∃ later, Consistent geo s' later ∧ Changed chains later op ∧
      (Mirrored geo fs.pmp.dev → Mirrored geo s'.pmp.dev) := by
  have hasChain {file : Nat} {dep : Denode} (isFile : fs.files[file]? = some dep) :
      ∃ cs, chains[file]? = some cs := by
    have below := (List.getElem?_eq_some_iff.mp isFile).1
    rw [good.length] at below
    exact ⟨_, getElem?_eq_getElem below⟩
  cases op with
  | extendfile file cnt usec =>
    obtain ⟨dep, isFile, rfl⟩ := map_eq_some_iff.mp moved
    obtain ⟨cs, chn⟩ := hasChain isFile
    obtain ⟨new, st, move, less, _⟩ :=
      @extendfile_spec geo fs.pmp dep cs usec volume (good.state isFile chn) cnt
    exact ⟨_, good.step isFile chn st move, ⟨cs, new, chn, less, rfl⟩, move.mirrored⟩
  | detrunc file len =>
    obtain ⟨dep, isFile, moved⟩ := bind_eq_some_iff.mp moved
    obtain ⟨cs, chn⟩ := hasChain isFile
    by_cases grows : dep.fileSize < len
    · rw [if_pos grows] at moved
      cases moved
    · rw [if_neg grows] at moved
      obtain rfl := some.inj moved
      obtain ⟨n, st, move, _⟩ := detrunc_spec volume (good.state isFile chn) len
      exact ⟨_, good.step isFile chn st move, ⟨cs, n, chn, rfl⟩, move.mirrored⟩
  | freeclusterchain file =>
    obtain ⟨dep, isFile, rfl⟩ := map_eq_some_iff.mp moved
    obtain ⟨cs, chn⟩ := hasChain isFile
    obtain ⟨st, move⟩ := free_file volume (good.state isFile chn)
    exact ⟨_, good.step isFile chn st move, rfl, move.mirrored⟩

end Steps

section Run

variable {geo : Geometry} {pmp : Msdosfsmount} {files : List Denode} {chains : List (List Nat)}

def mounted (geo : Geometry) (pmp : Msdosfsmount)
    (files : List Denode) : Fs := ⟨fillinusemap geo pmp, files⟩

/-- A FAT with the chains of some files, whose caches are empty. -/
structure WellFormed (geo : Geometry) (pmp : Msdosfsmount) (files : List Denode) (chains : List (List Nat)) :
    Prop where
  chained : Chained geo ⟨pmp, files⟩ chains
  fresh : ∀ dep ∈ files, ∀ fc ∈ [dep.lastmap, dep.lastfc, dep.nexttolastfc], fc.frcn = fceEmpty

theorem mounted_consistent (volume : Volume geo) (wf : WellFormed geo pmp files chains) :
    Consistent geo (mounted geo pmp files) chains := by
  obtain ⟨um, sameDev⟩ := @fillinusemap_spec geo pmp volume
  have sameFat : (fillinusemap geo pmp).fat geo = pmp.fat geo := by
    unfold Msdosfsmount.fat
    rw [sameDev]
  refine ⟨⟨wf.chained.length, ?_, wf.chained.nodup, wf.chained.disjoint⟩, ?_, ?_⟩
  · intro file dep cs isFile chn
    show FileChain geo ((fillinusemap geo pmp).fat geo) dep cs
    rw [sameFat]
    exact wf.chained.chain file dep cs isFile chn
  · show Usemap geo _ _ (freeClusters geo ((fillinusemap geo pmp).fat geo))
    rw [sameFat]
    exact um
  · intro file dep cs isFile _
    have fresh := wf.fresh dep (mem_of_getElem? isFile)
    exact ⟨fun fc isIn used => absurd (fresh fc isIn) used, fun used =>
      absurd (fresh _ (mem_cons_of_mem _ mem_cons_self)) used⟩

/-- After the mount and after each operation on a file of a well-formed volume the map, the count,
the chains and the caches are consistent, copies of the FAT that were equal at the mount are
equal, and the operation changes the chain of its own file at its end only. -/
theorem fat_consistent (volume : Volume geo) (wellFormed : WellFormed geo pmp files chains)
    {ops : List FatOp} {reached : Fs}
    (consumed : consume (fatStep geo) ops (mounted geo pmp files) = some reached) :
    (∃ now, Consistent geo reached now) ∧ (Mirrored geo pmp.dev → Mirrored geo reached.pmp.dev) ∧
      ∀ op s' now later, fatStep geo reached op = some s' → Consistent geo reached now →
        Consistent geo s' later → Changed now later op := by
  obtain ⟨_, sameDev⟩ := @fillinusemap_spec geo pmp volume
  have kept := consume_safe (fatStep geo) (fun fs => (∃ now, Consistent geo fs now) ∧
      (Mirrored geo pmp.dev → Mirrored geo fs.pmp.dev)) (fun _ _ => True)
    (fun fs op s' holds _ moved => by
      obtain ⟨⟨now, good⟩, mirrored⟩ := holds
      obtain ⟨later, laterConsistent, _, stillMirrored⟩ := fatStep_consistent volume good moved
      exact ⟨⟨later, laterConsistent⟩, stillMirrored ∘ mirrored⟩)
    ops ⟨⟨chains, mounted_consistent volume wellFormed⟩, fun mirrored => sameDev ▸ mirrored⟩
    (fun _ _ _ _ _ => trivial) consumed
  refine ⟨kept.1, kept.2, fun op s' now later moved good laterConsistent => ?_⟩
  obtain ⟨next, nextConsistent, changed, _⟩ := fatStep_consistent volume good moved
  rwa [chained_unique volume laterConsistent.toChained nextConsistent.toChained]

/-- A FAT12 volume with two FATs of one sector each. -/
def smallVolume : Geometry := ⟨.fat12, 512, 1, 1, 2, 0, true, 3, 9, 9, 1⟩

theorem small_volume : Volume smallVolume where
  sectors := ⟨128, rfl⟩
  holds cn inFat := by
    have inFat : cn ≤ 3 := inFat
    show cn * 3 / 2 + 2 ≤ 512
    omega
  fits := by decide
  first _ := rfl

/-- A device whose second FAT differs from the first one in its first byte. -/
def unequalFats : Msdosfsmount := ⟨fun a => if a = 1024 then 1 else 0, [], 0, 0, none⟩

theorem wellFormed_single {geo : Geometry} {pmp : Msdosfsmount} {dep : Denode} {cs : List Nat}
    (chain : FileChain geo (pmp.fat geo) dep cs) (nodup : cs.Nodup)
    (fresh : ∀ fc ∈ [dep.lastmap, dep.lastfc, dep.nexttolastfc], fc.frcn = fceEmpty) :
    WellFormed geo pmp [dep] [cs] where
  chained := {
    length := rfl
    chain := fun file oth ds isFile chn => by
      obtain rfl := mem_singleton.mp (mem_of_getElem? isFile)
      obtain rfl := mem_singleton.mp (mem_of_getElem? chn)
      exact chain
    nodup := fun ds isIn => mem_singleton.mp isIn ▸ nodup
    disjoint := fun file oth _ _ ne isAt isAt' => by
      have fst : file < 1 := (List.getElem?_eq_some_iff.mp isAt).1
      have second : oth < 1 := (List.getElem?_eq_some_iff.mp isAt').1
      omega }
  fresh oth isIn := mem_singleton.mp isIn ▸ fresh

theorem small_wellFormed (pmp : Msdosfsmount) : WellFormed smallVolume pmp [noFile] [[]] :=
  wellFormed_single (.inl ⟨rfl, rfl⟩) nodup_nil fun _ isIn =>
    congrArg Fatcache.frcn (eq_of_mem_replicate (n := 3) isIn)

/-- The first two of the six clusters of a volume are the chain of a file. -/
def chainVolume : Geometry := { smallVolume with maxcluster := 7 }

def chainFats : Msdosfsmount :=
  ⟨fun a => if a % 512 = 3 then 3 else if a % 512 = 4 then 0xf0 else if a % 512 = 5 then 0xff else 0,
    [], 0, 0, none⟩

def chainFile : Denode := { noFile with startCluster := 2, fileSize := 1024 }

theorem chain_volume : Volume chainVolume where
  sectors := ⟨128, rfl⟩
  holds cn inFat := by
    have inFat : cn ≤ 7 := inFat
    show cn * 3 / 2 + 2 ≤ 512
    omega
  fits := by decide
  first _ := rfl

theorem chain_file : FileChain chainVolume (chainFats.fat chainVolume) chainFile [2, 3] := by
  exact .inr ⟨by decide, rfl, by decide, by decide, by decide, by decide, by decide, rfl⟩

theorem chain_fresh : ∀ fc ∈ [chainFile.lastmap, chainFile.lastfc, chainFile.nexttolastfc],
    fc.frcn = fceEmpty := by
  decide

/-- A file of two clusters grows by two and is cut to one. -/
theorem fat_consistent_small : ∃ reached,
    consume (fatStep chainVolume) [.extendfile 0 2 7, .detrunc 0 512]
      (mounted chainVolume chainFats [chainFile]) = some reached ∧
    (∃ now, Consistent chainVolume reached now) ∧ reached.pmp.freeclustercount = 5 :=
  ⟨_, rfl, (@fat_consistent chainVolume chainFats [chainFile] [[2, 3]] chain_volume
    (wellFormed_single chain_file (by decide) chain_fresh) [.extendfile 0 2 7, .detrunc 0 512] _
    rfl).1, by decide⟩

/-- The copies of a mirrored FAT that differ at the mount still do behind it. -/
theorem fats_unequal : Volume smallVolume ∧ WellFormed smallVolume unequalFats [noFile] [[]] ∧
    smallVolume.fatmirror = true ∧
    ¬ Mirrored smallVolume (mounted smallVolume unequalFats [noFile]).pmp.dev := by
  refine ⟨small_volume, small_wellFormed unequalFats, rfl, fun mirrored => ?_⟩
  have same := congrFun (mirrored rfl 1 (by decide)) 0
  revert same
  decide

end Run

end NetBSD.Msdosfs
