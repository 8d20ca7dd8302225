import BareBoot.PlistBounds
import BareBoot.PlistImage
import BareBoot.PlistOrigin
import BareBoot.AcpiRegistry
import BareBoot.DsdtGrowth
import BareBoot.DsdtReplace
import BareBoot.AcpiChecksums
import BareBoot.RootRoom
import BareBoot.SleepImage
import BareBoot.NvramVars
import BareBoot.FlatTree
import BareBoot.EntryIteration
import BareBoot.DevPropRoundTrip
import BareBoot.PlistAppend
import BareBoot.LoadedPatches
import BareBoot.KextIdentifier
import BareBoot.ThinFat
import BareBoot.VersionScan
import BareBoot.SmbiosUpdate
import BareBoot.PlistLeaks
import BareBoot.PlistDecoding
import BareBoot.VideoBiosPatch
import BareBoot.LapicPatch
import BareBoot.CpuPatchInside
import BareBoot.DivertLog
import BareBoot.HexDecoding
import BareBoot.DevPropPool
import BareBoot.NewestNvram
import BareBoot.CpuClockUnits
import BareBoot.NvidiaVersion
import BareBoot.NvidiaHeads
import BareBoot.SmbiosChain
import BareBoot.MemLogGrowth
import BareBoot.MemorySlots
import BareBoot.NodeCounts
import BareBoot.PlistComments
import BareBoot.PlistDates
import BareBoot.PlistContents
import BareBoot.HobMemory
import BareBoot.PeRelocation
import BareBoot.LegacyRegion
import BareBoot.FlatEdit
