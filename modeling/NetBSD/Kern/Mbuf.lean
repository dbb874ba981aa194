import Mathlib.Algebra.BigOperators.Group.List.Basic
import Mathlib.Algebra.Order.Ring.Nat

/-!
Owns the read-only view of an mbuf chain that packet parsers use: for each
mbuf the address its data starts at, the memory from there on, and its length.
Memory past `m_len` is readable but holds no packet data. A chain is the list
of its mbufs in `m_next` order, and `mbytes` is the packet it carries.
-/

namespace NetBSD.Kern

def intMax : Nat := 2147483647

/-- One mbuf. `m_len` is a non-negative C `int`. -/
structure Mbuf where
  /-- `mtod(m, uintptr_t)`. -/
  addr : Nat
  /-- The byte at `mtod(m, u_char *)[i]`. -/
  data : Nat → UInt8
  m_len : Nat
  m_len_le : m_len ≤ intMax

def Mbuf.bytes (m : Mbuf) : List UInt8 := List.ofFn (fun i : Fin m.m_len => m.data i)

@[simp] theorem Mbuf.length_bytes (m : Mbuf) : m.bytes.length = m.m_len := by
  simp [Mbuf.bytes]

theorem Mbuf.getElem?_bytes (m : Mbuf) {i : Nat} (below : i < m.m_len) :
    m.bytes[i]? = some (m.data i) := by
  simp [Mbuf.bytes, below]

def mbytes (chain : List Mbuf) : List UInt8 := chain.flatMap Mbuf.bytes

def mlength : List Mbuf → Nat
  | [] => 0
  | m :: rest => m.m_len + mlength rest

@[simp] theorem mbytes_cons (m : Mbuf) (tl : List Mbuf) :
    mbytes (m :: tl) = m.bytes ++ mbytes tl := rfl

@[simp] theorem length_mbytes (chain : List Mbuf) : (mbytes chain).length = mlength chain := by
  induction chain with
  | nil => rfl
  | cons m tl ih => simp [mlength, ih]

theorem getElem?_mbytes_head (m : Mbuf) (tl : List Mbuf) {i : Nat} (below : i < m.m_len) :
    (mbytes (m :: tl))[i]? = some (m.data i) := by
  rw [mbytes_cons, List.getElem?_append_left (by simpa using below), m.getElem?_bytes below]

theorem getElem?_mbytes_tail (m : Mbuf) (tl : List Mbuf) {i : Nat} (above : m.m_len ≤ i) :
    (mbytes (m :: tl))[i]? = (mbytes tl)[i - m.m_len]? := by
  rw [mbytes_cons, List.getElem?_append_right (by simpa using above), Mbuf.length_bytes]

end NetBSD.Kern
