import NetBSD.Msdosfs.FatAlloc

/-!
Owns the chain of one file: `pcbmap` and the cache follow it, `extendfile` appends free clusters
to its end, and `detrunc` cuts clusters from its end.
-/

namespace NetBSD.Msdosfs

open List Option Nat Finset

section Chains

variable {geo : Geometry} {fat : Nat → UInt8} {cluster : Nat} {cs : List Nat}

theorem Linked.inside (link : Linked geo fat cluster cs) :
    ∀ cn ∈ cs, clustFirst ≤ cn ∧ cn ≤ geo.maxcluster := by
  induction cs generalizing cluster with
  | nil => exact fun cn isIn => absurd isIn not_mem_nil
  | cons head tl ih =>
    obtain ⟨_, fst, inFat, link⟩ := link
    exact forall_mem_cons.mpr ⟨⟨fst, inFat⟩, ih link⟩

theorem notEof_of_le (vol : Volume geo) (inFat : cluster ≤ geo.maxcluster) :
    geo.fatKind.msdosfseof cluster = false := by
  refine Bool.eq_false_iff.mpr fun isEof => ?_
  exact Nat.not_lt.mpr inFat (Nat.lt_of_lt_of_le vol.fits (clustRsrvd_le_of_eof _ isEof))

theorem Linked.not_eof (link : Linked geo fat cluster cs) (vol : Volume geo) (ne : cs ≠ []) :
    ¬ geo.fatKind.msdosfseof cluster = true := by
  cases cs with
  | nil => exact absurd rfl ne
  | cons head tl =>
    rw [notEof_of_le vol (link.1 ▸ link.2.2.1)]
    exact Bool.false_ne_true

theorem Linked.ne_zero (link : Linked geo fat cluster cs) : cluster ≠ 0 := by
  have pos : 0 < geo.fatKind.clustRsrvd := by
    cases geo.fatKind with
    | fat12 | fat16 | fat32 => decide
  cases cs with
  | nil => exact ne_of_gt (lt_of_lt_of_le pos (clustRsrvd_le_of_eof _ link))
  | cons head tl => exact ne_of_gt (lt_of_lt_of_le (by decide) (link.1 ▸ link.2.1))

theorem Linked.drop {i cn : Nat} (link : Linked geo fat cluster cs) (isAt : cs[i]? = some cn) :
    Linked geo fat cn (cs.drop i) := by
  induction cs generalizing cluster i with
  | nil => cases isAt
  | cons head tl ih =>
    cases i with
    | zero =>
      obtain ⟨rfl, link⟩ := link
      obtain rfl := some.inj isAt
      exact ⟨rfl, link⟩
    | succ i => exact ih link.2.2.2 isAt

theorem Linked.used (link : Linked geo fat cluster cs) : ∀ cn ∈ cs, geo.fatKind.entry fat cn ≠ 0 := by
  induction cs generalizing cluster with
  | nil => exact fun cn isIn => absurd isIn not_mem_nil
  | cons head tl ih =>
    obtain ⟨_, _, _, link⟩ := link
    exact forall_mem_cons.mpr ⟨link.ne_zero, ih link⟩

theorem linked_unique (vol : Volume geo) {oths : List Nat}
    (link : Linked geo fat cluster cs) (other : Linked geo fat cluster oths) : cs = oths := by
  induction cs generalizing cluster oths with
  | nil =>
    cases oths with
    | nil => rfl
    | cons head tl =>
      obtain ⟨rfl, _, inFat, _⟩ := other
      exact absurd ((notEof_of_le vol inFat).symm.trans link) Bool.false_ne_true
  | cons head tl ih =>
    obtain ⟨rfl, _, inFat, link⟩ := link
    cases oths with
    | nil => exact absurd ((notEof_of_le vol inFat).symm.trans other) Bool.false_ne_true
    | cons head tl =>
      obtain ⟨rfl, _, _, other⟩ := other
      rw [ih link other]

theorem Linked.redirect {last tgt : Nat} {pre old tl : List Nat} {other : Nat → UInt8}
    (link : Linked geo fat cluster (pre ++ last :: old))
    (same : ∀ cn ∈ pre, geo.fatKind.entry other cn = geo.fatKind.entry fat cn)
    (leads : geo.fatKind.entry other last = tgt) (goes : Linked geo other tgt tl) :
    Linked geo other cluster (pre ++ last :: tl) := by
  induction pre generalizing cluster with
  | nil =>
    obtain ⟨hd, fst, inFat, _⟩ := link
    exact ⟨hd, fst, inFat, leads ▸ goes⟩
  | cons head pre ih =>
    obtain ⟨hd, fst, inFat, link⟩ := link
    refine ⟨hd, fst, inFat, ?_⟩
    rw [same head mem_cons_self]
    exact ih link (forall_mem_cons.mp same).2

theorem msdosfseof_clustEofe (kind : FatKind) : kind.msdosfseof (clustEofe % kind.size) = true := by
  cases kind with
  | fat12 | fat16 | fat32 => decide

theorem Volume.mod_size (vol : Volume geo) (inFat : cluster ≤ geo.maxcluster) :
    cluster % geo.fatKind.size = cluster := by
  refine mod_eq_of_lt ?_
  have fits := vol.fits
  have le : geo.fatKind.clustRsrvd ≤ geo.fatKind.fatmask := and_le_right
  unfold FatKind.size
  omega

theorem linked_run {cnt : Nat} (fst : clustFirst ≤ cluster)
    (inFat : cluster + cnt ≤ geo.maxcluster + 1) (pos : 0 < cnt)
    (ents : ∀ cn, cluster ≤ cn → cn < cluster + cnt → geo.fatKind.entry fat cn =
      if cn + 1 < cluster + cnt then cn + 1 else clustEofe % geo.fatKind.size) :
    Linked geo fat cluster (List.range' cluster cnt) := by
  induction cnt generalizing cluster with
  | zero => exact absurd pos (lt_irrefl 0)
  | succ cnt ih =>
    rw [range'_succ]
    refine ⟨rfl, fst, by omega, ?_⟩
    rw [ents cluster (le_refl _) (by omega)]
    rcases Nat.eq_zero_or_pos cnt with rfl | more
    · rw [if_neg (lt_irrefl _)]
      exact msdosfseof_clustEofe _
    · rw [if_pos (by omega)]
      refine ih (le_succ_of_le fst) (by omega) more fun cn atLeast below => ?_
      rw [ents cn (by omega) (by omega), add_right_comm, add_assoc]

theorem linked_linkRun (vol : Volume geo) {got : Nat} (fst : clustFirst ≤ cluster)
    (inFat : cluster + got ≤ geo.maxcluster + 1) (pos : 0 < got) :
    Linked geo (linkRun geo.fatKind clustEofe got cluster fat) cluster (List.range' cluster got) := by
  refine linked_run fst inFat pos fun cn atLeast below => ?_
  rw [entry_linkRun, if_pos ⟨atLeast, below⟩]
  by_cases more : cn + 1 < cluster + got
  · rw [if_pos more, if_pos more, vol.mod_size (by omega)]
  · rw [if_neg more, if_neg more]

theorem Linked.length_le (link : Linked geo fat cluster cs) (nodup : cs.Nodup) :
    cs.length ≤ geo.maxcluster := by
  have lt := link.inside
  have le : cs.toFinset.card ≤ (Finset.Icc 1 geo.maxcluster).card := by
    refine card_le_card fun cn isIn => ?_
    have hins := lt cn (mem_toFinset.mp isIn)
    exact mem_Icc.mpr ⟨le_trans (by decide) hins.1, hins.2⟩
  rwa [toFinset_card_of_nodup nodup, card_Icc, Nat.add_sub_cancel] at le

end Chains

section Map

variable {geo : Geometry} {pmp : Msdosfsmount} {dep : Denode} {cs : List Nat}

theorem pcbmapLoop_linked (vol : Volume geo) {clusters i cn prevcn : Nat} {tl : List Nat}
    (link : Linked geo (pmp.fat geo) cn tl) :
    pcbmapLoop geo pmp.dev clusters i cn prevcn = match tl[clusters]? with
      | some fnd => .mapped fnd
      | none => .hiteof (i + tl.length) (tl.getLast?.getD prevcn) := by
  induction clusters generalizing i cn prevcn tl with
  | zero =>
    cases tl with
    | nil => exact if_pos link
    | cons head tl =>
      obtain ⟨rfl, _, inFat, _⟩ := link
      exact if_neg (by rw [notEof_of_le vol inFat]; decide)
  | succ clusters ih =>
    rw [pcbmapLoop]
    cases tl with
    | nil => exact if_pos (clustRsrvd_le_of_eof _ link)
    | cons head tl =>
      obtain ⟨rfl, fst, inFat, link⟩ := link
      obtain ⟨bn, blk, _, isFat⟩ := @bread_cluster geo pmp vol cn inFat
      have isAt := add_sub_of_le (@blockStart_le geo (geo.fatKind.fatofs cn))
      have lt := inside_cluster vol inFat
      have hread := @held_get geo pmp
        (bread geo pmp.dev bn (geo.blockSize (geo.blockStart (geo.fatKind.fatofs cn)))) _ cn _ lt isAt
      rw [isFat] at hread
      have pos : 0 < geo.fatKind.width := by
        cases geo.fatKind with
        | fat12 | fat16 | fat32 => exact succ_pos _
      rw [if_neg (not_le.mpr (lt_of_le_of_lt inFat vol.fits)),
        if_neg (not_or.mpr ⟨not_lt.mpr fst, not_lt.mpr inFat⟩), blk]
      dsimp only
      rw [if_neg (Nat.not_le.mpr (Nat.lt_of_lt_of_le (Nat.lt_add_of_pos_right pos) lt)), hread,
        ih link, getElem?_cons_succ, length_cons, add_right_comm,
        add_assoc, getLast?_cons, getD_some]

def FileChain (geo : Geometry) (fat : Nat → UInt8) (dep : Denode) (cs : List Nat) : Prop :=
  (dep.startCluster = 0 ∧ cs = []) ∨ (cs ≠ [] ∧ Linked geo fat dep.startCluster cs)

/-- The entries of the cache are clusters of the chain, and the one for the last cluster is the
last. -/
structure Cached (dep : Denode) (cs : List Nat) : Prop where
  entries : ∀ fc ∈ [dep.lastmap, dep.lastfc, dep.nexttolastfc], fc.frcn ≠ fceEmpty →
    cs[fc.frcn]? = some fc.fsrcn
  last : dep.lastfc.frcn ≠ fceEmpty → dep.lastfc.frcn + 1 = cs.length

/-- The cache answers an entry at or before the cluster asked for. -/
theorem fcLookup_spec {findcn : Nat} {fc : Fatcache} (fnd : dep.fcLookup findcn = some fc) :
    fc ∈ [dep.lastmap, dep.lastfc, dep.nexttolastfc] ∧ fc.frcn ≠ fceEmpty ∧ fc.frcn ≤ findcn := by
  have kept (ents : List Fatcache) (closest : Option Fatcache)
      (res : ents.foldl (fun closest fc =>
        if fc.frcn ≠ fceEmpty ∧ fc.frcn ≤ findcn then
          closest.elim (some fc) fun close => if fc.frcn > close.frcn then some fc else some close
        else closest) closest = some fc) :
      closest = some fc ∨ (fc ∈ ents ∧ fc.frcn ≠ fceEmpty ∧ fc.frcn ≤ findcn) := by
    induction ents generalizing closest with
    | nil => exact .inl res
    | cons head tl ih =>
      rw [foldl_cons] at res
      rcases ih _ res with isClosest | ⟨isIn, both⟩
      · by_cases fine : head.frcn ≠ fceEmpty ∧ head.frcn ≤ findcn
        · rw [if_pos fine] at isClosest
          cases closest with
          | none =>
            obtain rfl := some.inj isClosest
            exact .inr ⟨mem_cons_self, fine⟩
          | some close =>
            rw [elim_some] at isClosest
            by_cases closer : head.frcn > close.frcn
            · rw [if_pos closer] at isClosest
              obtain rfl := some.inj isClosest
              exact .inr ⟨mem_cons_self, fine⟩
            · rw [if_neg closer] at isClosest
              exact .inl isClosest
        · rw [if_neg fine] at isClosest
          exact .inl isClosest
      · exact .inr ⟨mem_cons_of_mem _ isIn, both⟩
  have isFold : dep.fcLookup findcn = [dep.lastmap, dep.lastfc, dep.nexttolastfc].foldl
      (fun closest fc =>
        if fc.frcn ≠ fceEmpty ∧ fc.frcn ≤ findcn then
          closest.elim (some fc) fun close => if fc.frcn > close.frcn then some fc else some close
        else closest) none := by
    unfold Denode.fcLookup
    congr 1
    funext closest fc
    cases closest <;> rfl
  rw [isFold] at fnd
  refine (kept _ none fnd).resolve_left fun hn => ?_
  cases hn

theorem pcbmap_spec (vol : Volume geo) (link : Linked geo (pmp.fat geo) dep.startCluster cs)
    (ne : cs ≠ []) (cached : Cached dep cs) (findcn : Nat) : pcbmap geo pmp.dev dep findcn =
      match cs[findcn]? with
      | some fnd => (.ok fnd, { dep with lastmap := ⟨findcn, fnd⟩ })
      | none => (.error (.e2big, some cs.length),
          { dep with lastfc := ⟨cs.length - 1, cs.getLast ne⟩ }) := by
  obtain ⟨i, cn, beg, le, isAt⟩ : ∃ i cn,
      ((dep.fcLookup findcn).map fun fc => (fc.frcn, fc.fsrcn)).getD (0, dep.startCluster) = (i, cn) ∧
      i ≤ findcn ∧ cs[i]? = some cn := by
    cases fnd : dep.fcLookup findcn with
    | none =>
      refine ⟨0, dep.startCluster, rfl, zero_le _, ?_⟩
      cases cs with
      | nil => exact absurd rfl ne
      | cons head tl => rw [link.1, getElem?_cons_zero]
    | some fc =>
      obtain ⟨isIn, ne, le⟩ := fcLookup_spec fnd
      exact ⟨fc.frcn, fc.fsrcn, rfl, le, cached.entries fc isIn ne⟩
  have lt := (List.getElem?_eq_some_iff.mp isAt).1
  have last : (cs.drop i).getLast?.getD 0 = cs.getLast ne := by
    rw [getLast?_drop, if_neg (not_le.mpr lt), getLast?_eq_some_getLast ne]
    rfl
  unfold pcbmap
  rw [if_neg link.ne_zero, beg]
  dsimp only
  rw [pcbmapLoop_linked vol (link.drop isAt), getElem?_drop, add_sub_of_le le,
    length_drop, add_sub_of_le (le_of_lt lt), last]
  cases cs[findcn]? with
  | none => rfl
  | some fnd => rfl

end Map

variable {fat : Nat → UInt8}

section States

variable {geo : Geometry} {pmp between s' : Msdosfsmount} {dep : Denode} {cs : List Nat}

/-- A mount point and a file with its chain. -/
structure FileState (geo : Geometry) (pmp : Msdosfsmount) (dep : Denode) (cs : List Nat) : Prop where
  chain : FileChain geo (pmp.fat geo) dep cs
  nodup : cs.Nodup
  cached : Cached dep cs
  usemap : Usemap geo pmp.inusemap pmp.freeclustercount (freeClusters geo (pmp.fat geo))

/-- What an operation on a file does to the FAT: new clusters of the chain were free, and the
entries of clusters in use that are not in the chain stay. -/
structure FileStep (geo : Geometry) (pmp after : Msdosfsmount) (cs later : List Nat) : Prop where
  fresh : ∀ cn ∈ later, cn ∈ cs ∨ geo.fatKind.entry (pmp.fat geo) cn = 0
  others : ∀ cn, cn ∉ cs → geo.fatKind.entry (pmp.fat geo) cn ≠ 0 →
    geo.fatKind.entry (after.fat geo) cn = geo.fatKind.entry (pmp.fat geo) cn
  mirrored : Mirrored geo pmp.dev → Mirrored geo after.dev

theorem FileStep.refl : FileStep geo pmp pmp cs cs := ⟨fun _ => .inl, fun _ _ _ => rfl, id⟩

theorem FileStep.trans {middle later : List Nat} (fst : FileStep geo pmp between cs middle)
    (snd : FileStep geo between s' middle later) : FileStep geo pmp s' cs later where
  fresh cn isLater := by
    rcases snd.fresh cn isLater with isMiddle | free
    · exact fst.fresh cn isMiddle
    · by_cases isOld : cn ∈ cs
      · exact .inl isOld
      · refine .inr (Classical.byContradiction fun used => used ?_)
        rw [← fst.others cn isOld used]
        exact free
  others cn notOld used := by
    have kept := fst.others cn notOld used
    have notMiddle : cn ∉ middle := fun isMiddle => (fst.fresh cn isMiddle).elim notOld used
    rw [snd.others cn notMiddle (by rw [kept]; exact used), kept]
  mirrored := snd.mirrored ∘ fst.mirrored

theorem freeClusters_sdiff {fat other : Nat → UInt8} {taken : Finset Nat}
    (areUsed : ∀ cn ∈ taken, geo.fatKind.entry other cn ≠ 0)
    (same : ∀ cn, cn ∉ taken → (geo.fatKind.entry other cn = 0 ↔ geo.fatKind.entry fat cn = 0)) :
    freeClusters geo other = freeClusters geo fat \ taken := by
  ext cn
  rw [mem_sdiff, mem_freeClusters, mem_freeClusters]
  by_cases isTaken : cn ∈ taken
  · exact ⟨fun both => absurd both.2 (areUsed cn isTaken), fun both => absurd isTaken both.2⟩
  · rw [same cn isTaken]
    exact (and_iff_left isTaken).symm

theorem freeClusters_clearRun (lt : ∀ cn ∈ cs, clustFirst ≤ cn ∧ cn ≤ geo.maxcluster) :
    freeClusters geo (clearRun geo.fatKind cs fat) = freeClusters geo fat ∪ cs.toFinset := by
  ext cn
  rw [mem_union, mem_freeClusters, mem_freeClusters, entry_clearRun, List.mem_toFinset]
  by_cases isIn : cn ∈ cs
  · rw [if_pos isIn]
    exact ⟨fun _ => .inr isIn, fun _ => ⟨lt cn isIn, rfl⟩⟩
  · rw [if_neg isIn, or_iff_left isIn]

end States

section Extend

variable {geo : Geometry} {pmp : Msdosfsmount} {dep : Denode} {cs : List Nat} {cn got usec : Nat}

variable {other : Nat}

theorem linkRun_used (vol : Volume geo) (inFat : cn + got ≤ geo.maxcluster + 1)
    (isIn : other ∈ Finset.Ico cn (cn + got)) :
    geo.fatKind.entry (linkRun geo.fatKind clustEofe got cn fat) other ≠ 0 := by
  have lt := mem_Ico.mp isIn
  rw [entry_linkRun, if_pos lt]
  by_cases more : other + 1 < cn + got
  · rw [if_pos more, vol.mod_size (by omega)]
    exact succ_ne_zero _
  · rw [if_neg more]
    cases geo.fatKind with
    | fat12 | fat16 | fat32 => decide

theorem linkRun_kept (notIn : other ∉ Finset.Ico cn (cn + got)) :
    geo.fatKind.entry (linkRun geo.fatKind clustEofe got cn fat) other = geo.fatKind.entry fat other := by
  rw [entry_linkRun, if_neg fun lt => notIn (mem_Ico.mpr lt)]

variable {s' : Msdosfsmount}

theorem Allocated.inside (alloc : Allocated geo pmp s' (freeClusters geo fat) cn got) :
    clustFirst ≤ cn ∧ cn + got ≤ geo.maxcluster + 1 := by
  have pos := alloc.pos
  have fst := (mem_freeClusters.mp (alloc.areFree 0 pos)).1.1
  have last := (mem_freeClusters.mp (alloc.areFree (got - 1) (by omega))).1.2
  exact ⟨fst, by omega⟩

theorem Allocated.wasFree (alloc : Allocated geo pmp s' (freeClusters geo fat) cn got)
    (isIn : other ∈ Finset.Ico cn (cn + got)) : geo.fatKind.entry fat other = 0 := by
  have lt := mem_Ico.mp isIn
  have free := (mem_freeClusters.mp (alloc.areFree (other - cn) (by omega))).2
  rwa [add_sub_of_le lt.1] at free

theorem mem_range' : other ∈ List.range' cn got ↔ other ∈ Finset.Ico cn (cn + got) := by
  rw [mem_range'_1, mem_Ico]

theorem Cached.extend (cached : Cached dep cs) (pos : 0 < got) {beg : Nat} :
    Cached { dep with startCluster := beg, lastfc := ⟨cs.length + got - 1, cn + got - 1⟩ }
      (cs ++ List.range' cn got) where
  entries fc isIn isUsed := by
    have old (isOld : fc ∈ [dep.lastmap, dep.lastfc, dep.nexttolastfc]) :
        (cs ++ List.range' cn got)[fc.frcn]? = some fc.fsrcn := by
      have isAt := cached.entries fc isOld isUsed
      rw [List.getElem?_append_left (List.getElem?_eq_some_iff.mp isAt).1]
      exact isAt
    rcases mem_cons.mp isIn with rfl | isIn
    · exact old mem_cons_self
    rcases mem_cons.mp isIn with rfl | isIn
    · rw [getElem?_append_right (by dsimp only; omega), getElem?_range' (by dsimp only; omega)]
      dsimp only
      congr 1
      omega
    · exact old (mem_cons_of_mem _ (mem_cons_of_mem _ isIn))
  last _ := by
    rw [length_append, length_range']
    dsimp only
    omega

theorem extend_empty (vol : Volume geo) (st : FileState geo pmp dep [])
    (alloc : Allocated geo pmp s' (freeClusters geo (pmp.fat geo)) cn got) :
    FileState geo s' { dep with startCluster := cn, lastfc := ⟨got - 1, cn + got - 1⟩ }
        (List.range' cn got) ∧
      FileStep geo pmp s' [] (List.range' cn got) := by
  obtain ⟨fst, inFat⟩ := alloc.inside
  have link := @linked_linkRun geo (pmp.fat geo) cn vol got fst inFat alloc.pos
  rw [← alloc.fat] at link
  have ne : List.range' cn got ≠ [] := by
    rw [Ne, range'_eq_nil_iff]
    exact ne_of_gt alloc.pos
  have cached := @Cached.extend dep [] cn got st.cached alloc.pos cn
  rw [length_nil, zero_add] at cached
  refine ⟨⟨.inr ⟨ne, link⟩, nodup_range', cached, ?_⟩, ?_, ?_, alloc.mirrored⟩
  · rw [@freeClusters_sdiff geo (pmp.fat geo) _ (Finset.Ico cn (cn + got)) ?_ ?_]
    · exact alloc.usemap
    · intro other isIn
      rw [alloc.fat]
      exact linkRun_used vol inFat isIn
    · intro other notIn
      rw [alloc.fat, linkRun_kept notIn]
  · exact fun other isIn => .inr (alloc.wasFree (mem_range'.mp isIn))
  · intro other _ used
    rw [alloc.fat]
    exact linkRun_kept fun isIn => used (alloc.wasFree isIn)

/-- New clusters are linked behind the last one. -/
theorem extend_linked (vol : Volume geo) {between : Msdosfsmount} {pre : List Nat}
    {last : Nat} (st : FileState geo pmp dep (pre ++ [last]))
    (alloc : Allocated geo pmp between (freeClusters geo (pmp.fat geo)) cn got)
    (wrote : Written geo between s' (geo.fatKind.put (between.fat geo) last cn)) :
    FileState geo s' { dep with lastfc := ⟨(pre ++ [last]).length + got - 1, cn + got - 1⟩ }
        (pre ++ [last] ++ List.range' cn got) ∧
      FileStep geo pmp s' (pre ++ [last]) (pre ++ [last] ++ List.range' cn got) := by
  obtain ⟨fst, inFat⟩ := alloc.inside
  have link := (st.chain.resolve_left fun both =>
    append_ne_nil_of_right_ne_nil _ (cons_ne_nil _ _) both.2).2
  have lastIn : last ∈ pre ++ [last] := mem_append_right _ mem_cons_self
  have lastUsed := link.used last lastIn
  have notNew {other : Nat} (used : geo.fatKind.entry (pmp.fat geo) other ≠ 0) :
      other ∉ Finset.Ico cn (cn + got) := fun isIn => used (alloc.wasFree isIn)
  have isFat : s'.fat geo =
      geo.fatKind.put (linkRun geo.fatKind clustEofe got cn (pmp.fat geo)) last cn := by
    rw [wrote.fat, alloc.fat]
  have atLast : geo.fatKind.entry (s'.fat geo) last = cn := by
    rw [isFat, entry_put_self, vol.mod_size (by have pos := alloc.pos; omega)]
  have kept {other : Nat} (ne : other ≠ last) (notIn : other ∉ Finset.Ico cn (cn + got)) :
      geo.fatKind.entry (s'.fat geo) other = geo.fatKind.entry (pmp.fat geo) other := by
    rw [isFat, entry_put_of_ne _ _ ne, linkRun_kept notIn]
  have newRun : Linked geo (s'.fat geo) cn (List.range' cn got) := by
    refine (@linked_linkRun geo (pmp.fat geo) cn vol got fst inFat alloc.pos).congr ?_
    intro other isIn
    rw [isFat, entry_put_of_ne]
    exact fun same => notNew lastUsed (same ▸ mem_range'.mp isIn)
  have notFront : last ∉ pre := fun isIn =>
    (nodup_append.mp st.nodup).2.2 last isIn last mem_cons_self rfl
  have redirected : Linked geo (s'.fat geo) dep.startCluster (pre ++ last :: List.range' cn got) := by
    refine link.redirect (fun other isIn => ?_) atLast newRun
    exact kept (fun same => notFront (same ▸ isIn)) (notNew (link.used other (mem_append_left _ isIn)))
  rw [append_cons] at redirected
  refine ⟨⟨.inr ⟨fun isNil => ?_, redirected⟩, ?_, st.cached.extend alloc.pos, ?_⟩, ?_, ?_, ?_⟩
  · exact append_ne_nil_of_left_ne_nil (ne_nil_of_mem lastIn) _ isNil
  · refine nodup_append.mpr ⟨st.nodup, nodup_range', fun other isOld new isNew same => ?_⟩
    exact notNew (link.used other isOld) (mem_range'.mp (same ▸ isNew))
  · rw [wrote.inusemap, wrote.freeclustercount,
      @freeClusters_sdiff geo (pmp.fat geo) _ (Finset.Ico cn (cn + got)) ?_ ?_]
    · exact alloc.usemap
    · intro other isIn
      have ne : other ≠ last := fun same => notNew lastUsed (same ▸ isIn)
      rw [isFat, entry_put_of_ne _ _ ne]
      exact linkRun_used vol inFat isIn
    · intro other notIn
      by_cases same : other = last
      · rw [same, atLast]
        exact ⟨fun zero => absurd zero (ne_of_gt (lt_of_lt_of_le (by decide) fst)),
          fun zero => absurd zero lastUsed⟩
      · rw [kept same notIn]
  · intro other isIn
    rcases mem_append.mp isIn with isOld | isNew
    · exact .inl isOld
    · exact .inr (alloc.wasFree (mem_range'.mp isNew))
  · intro other notOld used
    exact kept (fun same => notOld (same ▸ lastIn)) (notNew used)
  · exact fun mirrored => wrote.mirrored (alloc.mirrored mirrored)

end Extend

end NetBSD.Msdosfs
