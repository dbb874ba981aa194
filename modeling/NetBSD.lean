import NetBSD.Kern.LockfCharge
import NetBSD.Kern.ExtentFit
import NetBSD.Kern.CalloutRun
import NetBSD.Kern.DescripBounds
import NetBSD.Kern.BlistRun
import NetBSD.Net.Bpf.Segmentation
import NetBSD.Net.Npf.Window
import NetBSD.Net.Npf.Nat
import NetBSD.Net.Npf.Npt66
import NetBSD.Net.Npf.ConnRun
import NetBSD.Netinet.IpReassCount
import NetBSD.Netinet.IpReassWhole
import NetBSD.Netinet.TcpSack
import NetBSD.Netinet.InCksumChain
import NetBSD.Gen.RbSet
import NetBSD.Gen.RadixtreeRun
import NetBSD.Gen.RpstIterate
import NetBSD.Npfctl.Program
import NetBSD.Kern.SysvSemRange
import NetBSD.Kern.SysvSemWaitRun
import NetBSD.Libprop.DictionaryRun
import NetBSD.Libprop.RoundtripDocument
import NetBSD.Cdb.Writer
import NetBSD.Ufs.Discard
import NetBSD.Kern.ClistCount
import NetBSD.Kern.WapblRun
import NetBSD.Kern.WapblReplay
import NetBSD.Kern.SysPipeRun
import NetBSD.Msdosfs.ConvRound
import NetBSD.Msdosfs.FatCache
import NetBSD.Msdosfs.DosTime
import NetBSD.Kern.PcqRun
import NetBSD.Kern.SysMqueueRun
import NetBSD.Kern.SysMqueueTime
import NetBSD.Kern.SysMqueueOpenRun
import NetBSD.Netinet.InCksumRange
import NetBSD.Net.Bpf.JitBounds
import NetBSD.Ufs.DirhashRun
import NetBSD.Ufs.DirhashRelease
import NetBSD.Ufs.Mapsearch
import NetBSD.Net.Npf.RwrCksum
import NetBSD.Net.Npf.Tcpopts
import NetBSD.Kern.VmemFit
import NetBSD.Libc.Muldi3
