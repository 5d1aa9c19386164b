import Neptools.Cl3.Accesses
import Neptools.Cl3.Basic
import Neptools.Cl3.Bounds
import Neptools.Cl3.Files
import Neptools.Cl3.Layout
import Neptools.Cl3.Links
import Neptools.Cl3.Parse
import Neptools.Cl3.RoundTrip
import Neptools.Cl3.Written
import Neptools.Dumpable
import Neptools.DynamicStruct
import Neptools.Endian
import Neptools.FixedString
import Neptools.Format.Asks
import Neptools.Format.AtLabels
import Neptools.Format.CStringItem
import Neptools.Format.Carve
import Neptools.Format.Charted
import Neptools.Format.Consistent
import Neptools.Format.Contained
import Neptools.Format.Context
import Neptools.Format.Covered
import Neptools.Format.Defined
import Neptools.Format.Fixup
import Neptools.Format.Followed
import Neptools.Format.Held
import Neptools.Format.Item
import Neptools.Format.Keeps
import Neptools.Format.Label
import Neptools.Format.Labels
import Neptools.Format.Needs
import Neptools.Format.Nest
import Neptools.Format.Parse
import Neptools.Format.Parsed
import Neptools.Format.Pieces
import Neptools.Format.Pointers
import Neptools.Format.RawItem
import Neptools.Format.Registry
import Neptools.Format.Relabel
import Neptools.Format.Sizes
import Neptools.Format.Slice
import Neptools.Format.Split
import Neptools.Format.SplitDump
import Neptools.Format.Written
import Neptools.Gbnl.Accept
import Neptools.Gbnl.Basic
import Neptools.Gbnl.Bounds
import Neptools.Gbnl.Dump
import Neptools.Gbnl.FixString
import Neptools.Gbnl.Ids
import Neptools.Gbnl.Layout
import Neptools.Gbnl.Parse
import Neptools.Gbnl.Repack
import Neptools.Gbnl.RoundTrip
import Neptools.Gbnl.Strings
import Neptools.Gbnl.Tiles
import Neptools.Gbnl.Txt
import Neptools.Gbnl.TxtBlocks
import Neptools.Gbnl.TxtRoundTrip
import Neptools.Gbnl.TxtSafe
import Neptools.Gbnl.Types
import Neptools.Lib.Access
import Neptools.Lib.Align
import Neptools.Lib.Buffer
import Neptools.Lib.Consecutive
import Neptools.Lib.Except
import Neptools.Lib.Forest
import Neptools.Lib.Heap
import Neptools.Lib.Hole
import Neptools.Lib.List
import Neptools.Lib.Lru
import Neptools.Lib.Pod
import Neptools.Lib.Run
import Neptools.Lib.Siblings
import Neptools.Lib.Text
import Neptools.Lib.Trim
import Neptools.Lib.Unfold
import Neptools.Lib.Worklist
import Neptools.Pattern
import Neptools.Sink.Basic
import Neptools.Sink.Mmap
import Neptools.Sink.Simple
import Neptools.Source
import Neptools.Source.CString
import Neptools.Source.Cache
import Neptools.Source.Cpk
import Neptools.Source.Errors
import Neptools.Source.Provider
import Neptools.Stcm.Bounds
import Neptools.Stcm.Carve
import Neptools.Stcm.Counts
import Neptools.Stcm.Data
import Neptools.Stcm.Edits
import Neptools.Stcm.Expansions
import Neptools.Stcm.File
import Neptools.Stcm.Header
import Neptools.Stcm.Heuristics
import Neptools.Stcm.Items
import Neptools.Stcm.LinkTable
import Neptools.Stcm.Links
import Neptools.Stcm.Names
import Neptools.Stcm.Parse
import Neptools.Stcm.Reencode
import Neptools.Stcm.Relabel
import Neptools.Stcm.Stepping
import Neptools.Stcm.StringData
import Neptools.Stcm.Tables
import Neptools.Stsc.Carve
import Neptools.Stsc.Conditions
import Neptools.Stsc.Decode
import Neptools.Stsc.Defined
import Neptools.Stsc.Edited
import Neptools.Stsc.File
import Neptools.Stsc.Flavor
import Neptools.Stsc.Flow
import Neptools.Stsc.Items
import Neptools.Stsc.Known
import Neptools.Stsc.Listing
import Neptools.Stsc.Parse
import Neptools.Stsc.Reached
import Neptools.Stsc.Readable
import Neptools.Stsc.Reencode
import Neptools.Stsc.Relabel
import Neptools.Stsc.Reopen
import Neptools.Stsc.Reread
import Neptools.Stsc.RoundTrip
import Neptools.Stsc.Switch
import Neptools.Stsc.Txt
import Neptools.Stsc.Underway
import Neptools.Utils
