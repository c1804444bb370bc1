import Ldu.Annotations.RoundTrip
import Ldu.Binary.Alignment
import Ldu.Binary.LebExact
import Ldu.Binary.MachoFat
import Ldu.Binary.PeTables
import Ldu.Cfg.BoolDiamondsSound
import Ldu.Cfg.FlagDispatchSound
import Ldu.Cfg.LoopPostDominators
import Ldu.Cfg.LoopsExact
import Ldu.Cfg.Reducible
import Ldu.Cfg.TailMerge
import Ldu.Emit.Compound
import Ldu.Emit.FallbackSound
import Ldu.Emit.ForLoopsSound
import Ldu.Emit.LabelLines
import Ldu.Emit.Literals
import Ldu.Engine.Tables
import Ldu.Flirt.ArchiveRoundTrip
import Ldu.Flirt.Linked
import Ldu.Go.Pclntab
import Ldu.Idiom.MagicSound
import Ldu.Idiom.RangeCheck
import Ldu.Idiom.SignedShift
import Ldu.Lift.CallArgs
import Ldu.Lift.ConditionsSound
import Ldu.Listing.DecoderLocal
import Ldu.Listing.EhTablesSafe
import Ldu.Listing.JumpTable
import Ldu.Listing.PdataSeeds
import Ldu.Listing.RvaSet
import Ldu.Listing.SweepCaps
import Ldu.Listing.Xrefs
import Ldu.Names.Renumber
import Ldu.Naming.FlirtPass
import Ldu.Naming.Unique
import Ldu.Rust.Mangled
import Ldu.Shell.Banners
import Ldu.Shell.DecompCache
import Ldu.Shell.ProjectRefines
import Ldu.Shell.Stale
import Ldu.Shell.StringsExact
import Ldu.Table.SigTableFixed
import Ldu.Vars.CoalesceSound
import Ldu.Vars.CseGlobalSound
import Ldu.Vars.CseKey
import Ldu.Vars.DeadStoreSound
import Ldu.Vars.InvariantTempsSound
import Ldu.Vars.LocalDeadStore
import Ldu.Vars.LocalLoadsSound
import Ldu.Vars.MaybeUninit
import Ldu.Vars.NarrowSound
import Ldu.Vars.PhisSound
import Ldu.Vars.ReturnTempsSound
import Ldu.Vars.Unread
