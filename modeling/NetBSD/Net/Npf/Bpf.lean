import NetBSD.Net.Bpf.Filter

/-!
Owns `sys/net/npf/npf_bpf.c`: the BPF context of the packet filter, its two
coprocessor functions and the memory words that describe a packet to a program.
Addresses and tables stay abstract.
-/

namespace NetBSD.Net.Npf

open NetBSD.Net.Bpf

def bpfMwIpver : Nat := 0
def bpfMwL4off : Nat := 1
def bpfMwL4proto : Nat := 2
def npfBpfNwords : Nat := 3
def srcFlagBit : UInt32 := 0x80000000

def bpfMwAllmask : UInt32 := 7

/-- What the filter knows about the packet at hand, and the tables: a table answers
`npf_table_lookup` for an address length and an address. -/
structure Kernel (Addr : Type) where
  npc_alen : UInt32
  npc_hlen : UInt32
  npc_proto : UInt32
  npc_ips : Bool → Addr
  tableset : UInt32 → Option (UInt32 → Addr → Bool)

variable {Addr : Type}

/-- The IP version that an address length stands for. -/
def npcVersion (alen : UInt32) : UInt32 := alen &&& (4 : UInt32) ||| (alen >>> (4 : UInt32)) * 6

/-- The words that `npf_bpf_prepare` and `npf_cop_l3` write. -/
def outputWords (kernel : Kernel Addr) (mem : Nat → UInt32) : Nat → UInt32 :=
  Function.update (Function.update (Function.update mem bpfMwIpver (npcVersion kernel.npc_alen))
    bpfMwL4off kernel.npc_hlen)
    bpfMwL4proto kernel.npc_proto

def npfBpfPrepare (kernel : Kernel Addr) (pkt : Pkt) (pktlen : Nat) (mem : Nat → UInt32) :
    BpfArgs :=
  ⟨pkt, pktlen, 0, outputWords kernel mem⟩

def npfCopL3 : BpfCopfunc (Kernel Addr) := fun kernel args _ =>
  ⟨npcVersion kernel.npc_alen, { args with mem := outputWords kernel args.mem }, kernel⟩

section Prepare

variable (kernel : Kernel Addr) (pkt : Pkt) (pktlen : Nat) (mem : Nat → UInt32)

/-- The first three words describe the packet, and the others stay as they are. -/
theorem npfBpfPrepare_words :
    (npfBpfPrepare kernel pkt pktlen mem).mem bpfMwIpver = npcVersion kernel.npc_alen ∧
    (npfBpfPrepare kernel pkt pktlen mem).mem bpfMwL4off = kernel.npc_hlen ∧
    (npfBpfPrepare kernel pkt pktlen mem).mem bpfMwL4proto = kernel.npc_proto ∧
    ∀ i, npfBpfNwords ≤ i → (npfBpfPrepare kernel pkt pktlen mem).mem i = mem i := by
  refine ⟨rfl, rfl, rfl, fun i outside => ?_⟩
  unfold npfBpfNwords at outside
  simp only [npfBpfPrepare, outputWords, bpfMwIpver, bpfMwL4off, bpfMwL4proto]
  rw [Function.update_of_ne (by omega), Function.update_of_ne (by omega),
    Function.update_of_ne (by omega)]

/-- On a prepared packet the coprocessor function for layer 3 changes nothing. -/
theorem npfCopL3_prepared (a : UInt32) :
    npfCopL3 kernel (npfBpfPrepare kernel pkt pktlen mem) a =
      ⟨npcVersion kernel.npc_alen, npfBpfPrepare kernel pkt pktlen mem, kernel⟩ := by
  have same : outputWords kernel (outputWords kernel mem) = outputWords kernel mem := by
    funext i
    simp only [outputWords, Function.update_apply]
    split_ifs <;> rfl
  simp only [npfCopL3, npfBpfPrepare, same]

end Prepare

/-- The table exists and holds the address: `npf_tableset_getbyid` and
`npf_table_lookup`. -/
def tableLookup (kernel : Kernel Addr) (src : Bool) (tid : UInt32) : Bool :=
  match kernel.tableset tid with
  | none => false
  | some lookup => lookup kernel.npc_alen (kernel.npc_ips src)

def npfCopTable : BpfCopfunc (Kernel Addr) := fun kernel args a =>
  ⟨if tableLookup kernel (a &&& srcFlagBit != 0) (a &&& (srcFlagBit - 1)) then 1 else 0, args,
    kernel⟩

def npfBpfcop : Nat → BpfCopfunc (Kernel Addr)
  | 0 => npfCopL3
  | _ => npfCopTable

def npfBpfctx : BpfCtx (Kernel Addr) :=
  { bpfSetCop (bpfCreate (Kernel Addr)) (some npfBpfcop) 2 with
    extwords := npfBpfNwords, preinited := bpfMwAllmask, extmem := by decide }

theorem bpfSetExtmem_npfBpfctx :
    bpfSetExtmem (bpfSetCop (bpfCreate (Kernel Addr)) (some npfBpfcop) 2) npfBpfNwords
      bpfMwAllmask = .ok npfBpfctx := rfl

end NetBSD.Net.Npf
