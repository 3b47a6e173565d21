import CWB.Proofs.RandomReduce
import CWB.Proofs.Undump
import CWB.Proofs.Searchstr
import CWB.Proofs.Huffcode
import CWB.Proofs.SavedResult
import CWB.Proofs.EncodedCorpus
import CWB.Proofs.HeapArithmetic
import CWB.Proofs.StartTag
import CWB.Proofs.EncodeRegions
import CWB.Proofs.QueryStore
import CWB.Proofs.CqiServer
import CWB.Proofs.Auth
import CWB.Proofs.AlignEncode
import CWB.Proofs.LongestMatch
import CWB.Proofs.LabelConstraint
import CWB.Proofs.FilterLines
import CWB.Proofs.TagStarts
import CWB.Proofs.Expansion
import CWB.Proofs.SortCompare
import CWB.Proofs.Setop
import CWB.Proofs.TabQuery
import CWB.Proofs.AlignedRegion
import CWB.Proofs.AnchorQuery
import CWB.Proofs.RegexMatch
import CWB.Proofs.EvalBool
import CWB.Proofs.PatternTables
import CWB.Proofs.TargetSearch
import CWB.Proofs.SubcorpusName
import CWB.Proofs.FeatureSet
import CWB.Proofs.ElementAttributes
import CWB.Proofs.PrintTags
import CWB.Proofs.RegionTable
import CWB.Proofs.OptimalPath
import CWB.Proofs.FeatureMaps
import CWB.Proofs.CqiNames
import CWB.Proofs.AttributeLookup
import CWB.Proofs.AlignLines
import CWB.Proofs.SetIntersection
import CWB.Proofs.ExternalGroups
import CWB.Proofs.VariableFailure
import CWB.Proofs.MacroText
import CWB.Proofs.Bitfields
import CWB.Proofs.AutoString
import CWB.Proofs.ZapControls
import CWB.Proofs.Latex2iso
import CWB.Proofs.BitIO
