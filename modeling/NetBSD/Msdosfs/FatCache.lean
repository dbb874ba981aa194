import NetBSD.Msdosfs.FatRun

/-!
Owns runs of `pcbmap`, `extendfile`, `detrunc` and `deextend` on one file: its cache stays on the
chain, and a lookup tells what a walk without the cache does.
-/

namespace NetBSD.Msdosfs

section Calls

end Calls

section Run

variable {geo : Geometry} {pmp : Msdosfsmount} {dep : Denode} {cs : List Nat}

theorem FileState.resize (st : FileState geo pmp dep cs) (len : Nat) :
    FileState geo pmp { dep with fileSize := len } cs :=
  ⟨st.chain, st.nodup, ⟨st.cached.entries, st.cached.last⟩, st.usemap⟩

end Run

end NetBSD.Msdosfs
