import NetBSD.Npfctl.Blocks
import Mathlib.Data.Nat.Bitwise

/-!
Owns the invariants of the context. Outside a group the code built so far checks one
condition. Inside a group the code in front of it checks one, and the code of the
group has both readings; which of them the group ends with depends on the number of
its blocks.
-/

namespace NetBSD.Npfctl

open NetBSD.Net.Bpf List Nat

/-- A context outside a group. -/
structure Good (view : View) (ctx : NpfBpf) (p : Prop) : Prop where
  goff : ctx.goff = 0
  gblock : ctx.gblock = 0
  checks : Checks view ctx.prog false ctx.xEqL4off p
  version : ctx.fetchedL3 = true → p → VersionOk view ctx.af

/-- The code of a context at the start of the group and since then. -/
structure Split (view : View) (ctx : NpfBpf) (p all any : Prop) (n : Nat) where
  base : List BpfInsn
  code : List BpfInsn
  before : Bool
  prog : ctx.prog = base ++ code
  goff : ctx.goff = base.length
  empty : n = 0 → code = [] ∧ before = ctx.xEqL4off
  checksBase : Checks view base false before p
  checksCode : Checks view code before ctx.xEqL4off all
  offersCode : Offers view code before ctx.xEqL4off any

/-- A context inside a group of `n` blocks so far. -/
structure Group (view : View) (ctx : NpfBpf) (p all any : Prop) (n : Nat) : Prop where
  split : Nonempty (Split view ctx p all any n)
  ingroup : ctx.ingroup = true
  nblocks : ctx.nblocks = ctx.gblock + n
  version : ctx.fetchedL3 = true → p → VersionOk view ctx.af

section Invariants

variable {view : View} {ctx ctx' : NpfBpf} {p q all any all' any' : Prop} {n : Nat}

theorem good_create : Good view npfctlBpfCreate True :=
  ⟨rfl, rfl, Checks.nil, fun got => Bool.noConfusion got⟩

theorem Good.congr (good : Good view ctx p) (same : p ↔ q) : Good view ctx q :=
  propext same ▸ good

theorem Group.congr (group : Group view ctx p all any n) (sameP : p ↔ q) (sameAll : all ↔ all')
    (sameAny : any ↔ any') : Group view ctx q all' any' n :=
  propext sameP ▸ propext sameAll ▸ propext sameAny ▸ group

theorem Good.add (good : Good view ctx p) (code : List BpfInsn) (flag chk : Bool)
    (nblocks : Nat) (checks : Checks view code ctx.xEqL4off flag q) :
    Good view { ctx with prog := ctx.prog ++ code, nblocks := nblocks, xEqL4off := flag,
                         checkedL4 := chk } (p ∧ q) :=
  ⟨good.goff, good.gblock, good.checks.append fun _ => checks,
    fun got holds => good.version got holds.1⟩

theorem Checks.of_nil {x y : Bool} (checks : Checks view [] x y p) : p := by
  by_contra fails
  rcases (checks ⟨0, view.l4off⟩ fun _ => rfl).2 fails with ⟨r, escaped⟩ | ret
  · rw [exec_nil] at escaped
    cases escaped
  · rw [exec_nil] at ret
    cases ret

theorem Offers.of_nil {x y : Bool} (offers : Offers view [] x y p) : ¬ p := by
  intro holds
  obtain ⟨r', -, escapes, -⟩ := offers ⟨0, view.l4off⟩ fun _ => rfl
  have escaped := escapes holds
  rw [map_nil, exec_nil] at escaped
  cases escaped

/-! ### Groups -/

theorem Good.group (good : Good view ctx p) (begun : npfctlBpfGroup ctx = some ctx') :
    Group view ctx' p True False 0 := by
  rw [npfctlBpfGroup, if_neg (by simp [good.goff, good.gblock])] at begun
  obtain rfl := Option.some.inj begun
  exact ⟨⟨⟨ctx.prog, [], ctx.xEqL4off, (append_nil _).symm, rfl, fun _ => ⟨rfl, rfl⟩,
    good.checks, Checks.nil, Offers.nil⟩⟩, rfl, rfl, good.version⟩

theorem Group.add (group : Group view ctx p all any n) (code : List BpfInsn) (flag chk : Bool)
    (checks : Checks view code ctx.xEqL4off flag all')
    (offers : Offers view code ctx.xEqL4off flag any')
    (keeps : n ≠ 0 → flag = true → ctx.xEqL4off = true) :
    Group view { ctx with prog := ctx.prog ++ code, nblocks := ctx.nblocks + 1,
                          xEqL4off := flag, checkedL4 := chk }
      p (all ∧ all') (any ∨ any') (n + 1) := by
  obtain ⟨split⟩ := group.split
  refine ⟨⟨⟨split.base, split.code ++ code, split.before, ?_, split.goff, ?_, split.checksBase,
    split.checksCode.append fun _ => checks, split.offersCode.append offers ?_⟩⟩, group.ingroup, ?_,
    group.version⟩
  · rw [← append_assoc, ← split.prog]
  · intro zero
    omega
  · intro holds
    apply keeps
    intro zero
    have offersNone := split.offersCode
    rw [(split.empty zero).1] at offersNone
    exact offersNone.of_nil holds
  · have cnt := group.nblocks
    simp only
    omega

theorem Offers.fixup {code fixed : List BpfInsn} {x y : Bool} (offers : Offers view code x y p)
    (done : fixupInsns true code = some fixed) :
    Checks view (fixed ++ [insnRet npfBpfFailure]) x y p := by
  intro r held
  obtain ⟨r', held', escapes, falls⟩ := offers r held
  by_cases holds : p
  · rw [exec_fixup done _ (by simp [escapes holds]), escapes holds]
    exact ⟨fun _ => ⟨r', held', rfl⟩, fun fails => absurd holds fails⟩
  · rw [exec_fixup done _ (by simp [falls holds]), falls holds]
    exact ⟨fun also => absurd also holds, fun _ => Or.inr exec_ret⟩

theorem Group.endgroup (group : Group view ctx p all any n)
    (ended : npfctlBpfEndgroup ctx = some ctx') :
    Good view ctx' (p ∧ if n ≤ 1 then all else any) ∧ ctx'.ingroup = true := by
  obtain ⟨split⟩ := group.split
  have cnt : ctx.nblocks - ctx.gblock = n := by
    have total := group.nblocks
    omega
  simp only [npfctlBpfEndgroup, cnt] at ended
  by_cases few : n ≤ 1
  · rw [if_pos few] at ended
    obtain rfl := Option.some.inj ended
    refine ⟨⟨rfl, rfl, ?_, fun got holds => group.version got holds.1⟩, group.ingroup⟩
    simp only [if_pos few, split.prog]
    exact split.checksBase.append fun _ => split.checksCode
  rw [if_neg few] at ended
  simp only [fixupJumps, addInsns, take_left', split.goff] at ended
  rw [split.prog, drop_left' rfl] at ended
  cases done : fixupInsns true split.code with
  | none => simp [done] at ended
  | some fixed =>
    simp only [done, Option.bind_eq_bind, Option.bind_some, Option.some.injEq] at ended
    subst ended
    refine ⟨⟨rfl, rfl, ?_, fun got holds => group.version got holds.1⟩, group.ingroup⟩
    simp only [if_neg few]
    have offered := split.checksBase.append fun _ => split.offersCode.fixup done
    rw [drop_left' rfl, append_assoc split.base split.code, take_left' rfl,
      append_assoc]
    exact offered

/-! ### Layer 3 -/

variable {af : Option Af}

theorem versionOk_of_checked (agree : ¬ (af.isSome = true ∧ af ≠ ctx.af))
    (ok : VersionOk view ctx.af) : VersionOk view af := by
  cases af with
  | none => exact ok.any
  | some family =>
    have same : some family = ctx.af := by
      by_contra ne
      exact agree ⟨rfl, ne⟩
    rw [same]
    exact ok

theorem Good.fetchVersion (good : Good view ctx p) (out : ctx.ingroup = false)
    (got : fetchVersion ctx af = some ctx') :
    Good view ctx' (p ∧ VersionOk view af) ∧ ctx'.ingroup = false := by
  simp only [Npfctl.fetchVersion, out] at got
  split at got
  · obtain rfl := Option.some.inj got
    exact ⟨⟨good.goff, good.gblock, good.checks.append fun _ => checks_insnsAf view af _,
      fun _ holds => holds.2⟩, out⟩
  rename_i chk
  push Not at chk
  split at got
  · simp at got
  · rename_i agree
    obtain rfl := Option.some.inj got
    have isFetched : ctx.fetchedL3 = true := by simpa using chk.1
    refine ⟨good.congr ⟨fun holds => ⟨holds, ?_⟩, And.left⟩, out⟩
    exact versionOk_of_checked agree (good.version isFetched holds)

theorem fetchVersion_inside (lt : ctx.ingroup = true)
    (got : fetchVersion ctx af = some ctx') : (ctx.nblocks = ctx.gblock ∧ ctx' = { ctx with
      prog := ctx.prog ++ insnsAf af, fetchedL3 := true, af := af,
      goff := (ctx.prog ++ insnsAf af).length, gblock := ctx.nblocks, ingroup := true }) ∨
    (ctx.fetchedL3 = true ∧ ¬ (af.isSome = true ∧ af ≠ ctx.af) ∧ ctx' = ctx) := by
  simp only [fetchVersion] at got
  split at got
  · split at got
    · simp at got
    rename_i fst
    have noBlock : ctx.nblocks = ctx.gblock := by
      by_contra ne
      exact fst ne
    have ended : npfctlBpfEndgroup ctx = some { ctx with goff := 0, gblock := 0 } := by
      simp only [npfctlBpfEndgroup]
      rw [if_pos (by omega)]
    rw [ended] at got
    simp only [Option.bind_eq_bind, Option.bind_some, npfctlBpfGroup, addInsns, ne_eq,
      not_true_eq_false, or_self, if_false, Option.some.injEq] at got
    exact Or.inl ⟨noBlock, got.symm⟩
  · rename_i chk
    push Not at chk
    split at got
    · simp at got
    · rename_i agree
      exact Or.inr ⟨by simpa using chk.1, agree, (Option.some.inj got).symm⟩

theorem fetchVersion_xEqL4off (lt : ctx.ingroup = true)
    (got : fetchVersion ctx af = some ctx') : ctx'.xEqL4off = ctx.xEqL4off := by
  rcases fetchVersion_inside lt got with ⟨-, rfl⟩ | ⟨-, -, rfl⟩ <;> rfl

theorem Group.fetchVersion (group : Group view ctx p all any n)
    (got : fetchVersion ctx af = some ctx') :
    Group view ctx' (p ∧ VersionOk view af) all any n := by
  rcases fetchVersion_inside group.ingroup got with ⟨noBlock, rfl⟩ | ⟨isFetched, agree, rfl⟩
  · obtain ⟨split⟩ := group.split
    have zero : n = 0 := by
      have cnt := group.nblocks
      omega
    subst zero
    obtain ⟨noCode, unch⟩ := split.empty rfl
    have prog : ctx.prog = split.base := by rw [split.prog, noCode, append_nil]
    have checksCode := split.checksCode
    have offersCode := split.offersCode
    have checksBase := split.checksBase
    rw [noCode, unch] at checksCode offersCode
    rw [← prog, unch] at checksBase
    exact ⟨⟨⟨ctx.prog ++ insnsAf af, [], ctx.xEqL4off, (append_nil _).symm, rfl,
      fun _ => ⟨rfl, rfl⟩, checksBase.append fun _ => checks_insnsAf view af _, checksCode,
      offersCode⟩⟩, rfl, rfl, fun _ holds => holds.2⟩
  · refine group.congr ⟨fun holds => ⟨holds, ?_⟩, And.left⟩ Iff.rfl Iff.rfl
    exact versionOk_of_checked agree (group.version isFetched holds)

def FamilyChecked (ctx : NpfBpf) (family : Af) : Prop :=
  ctx.fetchedL3 = true ∧ ctx.af = some family

theorem fetchVersion_familyChecked {family : Af} (lt : ctx.ingroup = true)
    (got : fetchVersion ctx (some family) = some ctx') :
    FamilyChecked ctx' family ∧ ctx'.ingroup = true := by
  rcases fetchVersion_inside lt got with ⟨-, rfl⟩ | ⟨isFetched, agree, rfl⟩
  · exact ⟨⟨rfl, rfl⟩, rfl⟩
  · refine ⟨⟨isFetched, ?_⟩, lt⟩
    by_contra ne
    exact agree ⟨rfl, fun same => ne same.symm⟩

theorem FamilyChecked.fetchVersion {family oth : Af} (chk : FamilyChecked ctx family)
    (got : fetchVersion ctx (some oth) = some ctx') : oth = family ∧ ctx' = ctx := by
  obtain ⟨isFetched, isFamily⟩ := chk
  simp only [Npfctl.fetchVersion, isFetched, isFamily] at got
  simp only [Bool.not_true, Bool.false_eq_true, reduceCtorEq, and_false, or_self, if_false,
    Option.isSome_some, true_and, ne_eq, Option.some.injEq] at got
  split at got
  · simp at got
  · rename_i same
    exact ⟨by simpa using same, (Option.some.inj got).symm⟩

end Invariants

/-!
### Lists

The lists of a rule: what one element adds to the group that is open, and what
the group of a whole list checks.
-/

section Fetch

variable {ctx : NpfBpf} {af : Option Af}

theorem fetchL3_false : fetchL3 ctx af false = fetchVersion ctx af := by
  unfold fetchL3
  cases fetchVersion ctx af <;> simp

theorem fetchL3_true : fetchL3 ctx af true = (fetchVersion ctx af).map fun ctx =>
      { ctx with prog := ctx.prog ++ xLoad ctx.xEqL4off, xEqL4off := true } := by
  unfold fetchL3
  cases fetchVersion ctx af with
  | none => rfl
  | some ctx =>
    cases flag : ctx.xEqL4off with
    | true =>
      simp only [xLoad]
      simp [← flag]
    | false => simp [flag, xLoad, addInsns]

end Fetch

/-! ### Lists -/

/-- What the elements of a list add to the group that is open: a condition in front of
the group, the two readings of a block and the number of blocks. -/
structure Element where
  front : Prop
  all : Prop
  any : Prop
  blocks : Nat

section Vars

variable {view : View} {ctx ctx' : NpfBpf} {p all any : Prop} {n : Nat} {ε : Type}

def Builds (view : View) (build : NpfBpf → ε → Option NpfBpf) (element : ε → Element)
    (invariant : Nat → NpfBpf → Prop) : Prop :=
  ∀ e ctx ctx' p all any n, Group view ctx p all any n → invariant n ctx → build ctx e = some ctx' →
    Group view ctx' (p ∧ (element e).front) (all ∧ (element e).all) (any ∨ (element e).any)
      (n + (element e).blocks) ∧ invariant (n + (element e).blocks) ctx'

variable {build : NpfBpf → ε → Option NpfBpf} {element : ε → Element}
  {invariant : Nat → NpfBpf → Prop}

theorem Group.foldlM (builds : Builds view build element invariant) (vars : List ε)
    (group : Group view ctx p all any n) (kept : invariant n ctx)
    (built : vars.foldlM build ctx = some ctx') :
    Group view ctx' (p ∧ ∀ e ∈ vars, (element e).front) (all ∧ ∀ e ∈ vars, (element e).all)
      (any ∨ ∃ e ∈ vars, (element e).any) (n + (vars.map fun e => (element e).blocks).sum) := by
  induction vars generalizing ctx p all any n with
  | nil =>
    obtain rfl : ctx = ctx' := by simpa using built
    exact group.congr (by simp) (by simp) (by simp)
  | cons e tl ih =>
    rw [foldlM_cons] at built
    cases fst : build ctx e with
    | none => simp [fst] at built
    | some next =>
      simp only [fst] at built
      obtain ⟨group', kept'⟩ := builds e ctx next p all any n group kept fst
      have grown := ih group' kept' built
      rw [map_cons, sum_cons, ← add_assoc]
      exact grown.congr (by simp [and_assoc]) (by simp [and_assoc]) (by simp [or_assoc])

theorem Good.vars (builds : Builds view build element invariant) {vars : List ε}
    (beg : ∀ ctx, invariant 0 ctx) (good : Good view ctx p)
    (built : npfctlBuildVars build vars ctx = some ctx') :
    Good view ctx' (p ∧ (∀ e ∈ vars, (element e).front) ∧
      if (vars.map fun e => (element e).blocks).sum ≤ 1 then ∀ e ∈ vars, (element e).all
      else ∃ e ∈ vars, (element e).any) := by
  unfold npfctlBuildVars at built
  cases begun : npfctlBpfGroup ctx with
  | none => simp [begun] at built
  | some opened =>
    simp only [begun, Option.bind_eq_bind, Option.bind_some] at built
    cases folded : vars.foldlM build opened with
    | none => simp [folded] at built
    | some full =>
      simp only [folded] at built
      have group := (good.group begun).foldlM builds vars (beg opened) folded
      refine (group.endgroup built).1.congr ?_
      simp only [true_and, false_or, Nat.zero_add, and_assoc]

end Vars

/-! ### Addresses -/

def FamAddrMask.Agrees (view : View) (side : Side) (fam : FamAddrMask) : Prop :=
  ∀ index inside, WordAgrees view (addrOff fam.family side) (prefixLength fam.family fam.mask)
    (fam.addr.words fam.family) index inside

def FamAddrMask.SomeWordAgrees (view : View) (side : Side) (fam : FamAddrMask) : Prop :=
  ∃ index inside, 32 * index < prefixLength fam.family fam.mask ∧
    WordAgrees view (addrOff fam.family side) (prefixLength fam.family fam.mask)
      (fam.addr.words fam.family) index inside

/-- The element is compiled: it is not of another family than the rule and its mask is
not zero. -/
def FamAddrMask.Compiled (family : Option Af) (fam : FamAddrMask) : Prop :=
  (family = none ∨ family = some fam.family) ∧ fam.mask ≠ 0

instance (family : Option Af) (fam : FamAddrMask) : Decidable (fam.Compiled family) :=
  inferInstanceAs (Decidable (_ ∧ _))

def FamAddrMask.element (view : View) (family : Option Af) (side : Side) (fam : FamAddrMask) :
    Element where
  front := fam.Compiled family → view.ipver = fam.family.version
  all := fam.Compiled family → fam.Agrees view side
  any := fam.Compiled family ∧ fam.SomeWordAgrees view side
  blocks := if fam.Compiled family then 1 else 0

section Addresses

variable {view : View} {ctx ctx' : NpfBpf} {p all any : Prop} {n : Nat} {family : Option Af}
  {side : Side} {fam : FamAddrMask}

theorem npfctlBuildFam_skipped (skip : ¬ fam.Compiled family)
    (built : npfctlBuildFam ctx family fam side = some ctx') : ctx' = ctx := by
  unfold npfctlBuildFam at built
  split at built
  · split at built
    · simp at built
    · exact (Option.some.inj built).symm
  rename_i agree
  split at built
  · split at built
    · simp at built
    · exact (Option.some.inj built).symm
  · rename_i pos
    refine absurd ⟨?_, pos⟩ skip
    cases family with
    | none => exact Or.inl rfl
    | some f => exact Or.inr (by simpa using agree)

theorem npfctlBuildFam_compiled (compiled : fam.Compiled family)
    (built : npfctlBuildFam ctx family fam side = some ctx') :
    ∃ got, fetchVersion ctx (some fam.family) = some got ∧ ctx' = { got with
        prog := got.prog ++ cidrInsns (addrOff fam.family side)
          (prefixLength fam.family fam.mask) (fam.addr.words fam.family)
        nblocks := got.nblocks + 1 } := by
  have agree : ¬ (family.isSome = true ∧ family ≠ some fam.family) := by
    rintro ⟨given, ne⟩
    rcases compiled.1 with rfl | rfl
    · simp at given
    · exact ne rfl
  rw [npfctlBuildFam, if_neg agree, if_neg compiled.2, npfctlBpfCidr] at built
  split at built
  · simp at built
  rw [fetchL3_false] at built
  cases got : fetchVersion ctx (some fam.family) with
  | none => simp [got] at built
  | some next =>
    simp only [got, Option.bind_eq_bind, Option.bind_some, Option.some.injEq] at built
    exact ⟨next, rfl, built.symm⟩

theorem builds_fams (view : View) (family : Option Af) (side : Side) :
    Builds view (fun ctx fam => npfctlBuildFam ctx family fam side)
      (FamAddrMask.element view family side) (fun _ _ => True) := by
  intro fam ctx ctx' p all any n group _ built
  refine ⟨?_, trivial⟩
  by_cases compiled : fam.Compiled family
  · obtain ⟨next, got, rfl⟩ := npfctlBuildFam_compiled compiled built
    have added := (group.fetchVersion got).add
      (cidrInsns (addrOff fam.family side) _ _) next.xEqL4off next.checkedL4
      (checks_cidr next.xEqL4off fam.zeroBeyond)
      (offers_cidr next.xEqL4off fam.zeroBeyond) (fun _ set => set)
    simp only [FamAddrMask.element, compiled, true_and, true_implies]
    exact added
  · rw [npfctlBuildFam_skipped compiled built]
    simp only [FamAddrMask.element, compiled, false_and, false_implies, if_false, and_true,
      or_false, add_zero]
    exact group

/-- A group compiles only for addresses of one family. -/
theorem foldlM_sameFamily {list : List FamAddrMask} (lt : ctx.ingroup = true)
    (built : list.foldlM (fun ctx fam => npfctlBuildFam ctx family fam side) ctx = some ctx') :
    (∀ known, FamilyChecked ctx known → ∀ fam ∈ list, fam.Compiled family → fam.family = known) ∧
    ∀ fam ∈ list, ∀ oth ∈ list, fam.Compiled family → oth.Compiled family →
      fam.family = oth.family := by
  induction list generalizing ctx with
  | nil => simp
  | cons head tl ih =>
    rw [foldlM_cons] at built
    cases first : npfctlBuildFam ctx family head side with
    | none => simp [first] at built
    | some next =>
      simp only [first] at built
      by_cases compiled : head.Compiled family
      · obtain ⟨got, isFetched, rfl⟩ := npfctlBuildFam_compiled compiled first
        obtain ⟨isFamily, inside'⟩ := fetchVersion_familyChecked lt isFetched
        have same := (ih (by exact inside') built).1 head.family isFamily
        refine ⟨fun known chk fam mem comp => ?_,
          fun fam mem oth member' comp isCompiled' => ?_⟩
        · rw [← (chk.fetchVersion isFetched).1]
          rcases mem_cons.mp mem with rfl | hrest
          · rfl
          · exact same fam hrest comp
        have atHead : ∀ fam ∈ head :: tl, fam.Compiled family → fam.family = head.family := by
          intro fam mem comp
          rcases mem_cons.mp mem with rfl | hrest
          · rfl
          · exact same fam hrest comp
        rw [atHead fam mem comp, atHead oth member' isCompiled']
      · rw [npfctlBuildFam_skipped compiled first] at built
        obtain ⟨chk, pairwise⟩ := ih lt built
        have hrest : ∀ fam ∈ head :: tl, fam.Compiled family → fam ∈ tl := by
          intro fam mem comp
          rcases mem_cons.mp mem with rfl | hrest
          · exact absurd comp compiled
          · exact hrest
        exact ⟨fun known isKnown fam mem comp =>
            chk known isKnown fam (hrest fam mem comp) comp,
          fun fam mem oth member' comp isCompiled' =>
            pairwise fam (hrest fam mem comp) oth (hrest oth member' isCompiled')
              comp isCompiled'⟩

end Addresses

/-! ### Tables -/

def TableId.Found (view : View) (side : Side) (table : TableId) : Prop :=
  view.lookup (side = .src) table.tid = true

/-- What a table adds to the group. -/
def TableId.element (view : View) (side : Side) (table : TableId) : Element where
  front := True
  all := table.Found view side
  any := table.Found view side
  blocks := 1

section TableBits

variable {tid : UInt32}

theorem tid_of_flag (sml : tid < srcFlagBit) (flag : Bool) :
    ((if flag then srcFlagBit else 0) ||| tid) &&& (srcFlagBit - 1) = tid := by
  have low : tid.toNat < 2 ^ 31 := UInt32.lt_iff_toNat_lt.mp sml
  have mask : (srcFlagBit - 1).toNat = 2 ^ 31 - 1 := rfl
  rw [← UInt32.toNat_inj, UInt32.toNat_and, UInt32.toNat_or, mask, and_two_pow_sub_one_eq_mod]
  cases flag with
  | false => simpa using mod_eq_of_lt low
  | true =>
    have bit : (if true = true then srcFlagBit else 0).toNat = 2 ^ 31 * 1 := rfl
    rw [bit, ← two_pow_add_eq_or_of_lt low, mul_add_mod, mod_eq_of_lt low]

theorem flag_of_tid (sml : tid < srcFlagBit) (flag : Bool) :
    (((if flag then srcFlagBit else 0) ||| tid) &&& srcFlagBit != 0) = flag := by
  have low : tid.toNat < 2 ^ 31 := UInt32.lt_iff_toNat_lt.mp sml
  have bit : srcFlagBit.toNat = 2 ^ 31 := rfl
  have masked : (((if flag then srcFlagBit else 0) ||| tid) &&& srcFlagBit).toNat =
      flag.toNat * 2 ^ 31 := by
    rw [UInt32.toNat_and, bit, and_two_pow, UInt32.toNat_or, testBit_or,
      testBit_lt_two_pow low, Bool.or_false]
    cases flag <;> rfl
  cases flag with
  | false =>
    rw [UInt32.toNat_inj.mp (masked.trans rfl : _ = (0 : UInt32).toNat)]
    rfl
  | true =>
    rw [bne_iff_ne]
    intro zero
    rw [zero] at masked
    exact absurd masked (by decide)

end TableBits

theorem TableId.found_iff (view : View) (side : Side) (table : TableId) :
    view.table ((if side = .src then srcFlagBit else 0) ||| table.tid) ≠ 0 ↔
      table.Found view side := by
  have asFlag : (if side = .src then srcFlagBit else 0) =
      if decide (side = .src) = true then srcFlagBit else 0 := by simp
  rw [View.table, asFlag, tid_of_flag table.small, flag_of_tid table.small, TableId.Found]
  split <;> simp_all

theorem builds_tables (view : View) (side : Side) :
    Builds view (fun ctx table => some (npfctlBpfTable ctx side table.tid))
      (TableId.element view side) (fun _ _ => True) := by
  intro table ctx ctx' p all any n group _ built
  obtain rfl := Option.some.inj built
  have added := group.add
    ([insnLdImm ((if side = .src then srcFlagBit else 0) ||| table.tid), insnCop npfCopTable] ++
      [insnJmp .jeq 0 jumpMagic 0]) ctx.xEqL4off ctx.checkedL4
    (sets_table.checks_jne.congr (table.found_iff view side))
    (sets_table.offers_jne.congr (table.found_iff view side)) (fun _ set => set)
  exact ⟨added.congr (and_true p).symm.to_iff Iff.rfl Iff.rfl, trivial⟩

/-! ### Port ranges -/

def PortRange.Contains (view : View) (side : Side) (range : PortRange) : Prop :=
  range.start.toUInt32 ≤ view.port side ∧ view.port side ≤ range.stop.toUInt32

def PortRange.element (view : View) (side : Side) (range : PortRange) : Element where
  front := VersionOk view none
  all := range.Contains view side
  any := view.port side = range.start.toUInt32 ∨ range.start ≠ range.stop
  blocks := 1

theorem builds_ports (view : View) (side : Side) :
    Builds view (fun ctx range => npfctlBpfPorts ctx side range.start range.stop)
      (PortRange.element view side) (fun n ctx => n ≠ 0 → ctx.xEqL4off = true) := by
  intro range ctx ctx' p all any n group kept built
  simp only [npfctlBpfPorts] at built
  split at built
  · simp at built
  rw [fetchL3_true] at built
  cases fetched : fetchVersion ctx none with
  | none => simp [fetched] at built
  | some next =>
    simp only [fetched, Option.map_some, Option.bind_eq_bind, Option.bind_some,
      Option.some.injEq] at built
    subst built
    have sameX := fetchVersion_xEqL4off group.ingroup fetched
    have added := (group.fetchVersion fetched).add
      (xLoad next.xEqL4off ++ [insnLdInd .h (portOff side)] ++ portInsns range.start range.stop)
      true next.checkedL4 checks_ports (offers_ports range.ordered)
      (fun several _ => sameX.trans (kept several))
    refine ⟨?_, fun _ => rfl⟩
    simp only [addInsns, doneBlock, append_assoc] at added ⊢
    exact added

end NetBSD.Npfctl
