import UrlParseNginx.Library.Loop
import UrlParseNginx.Library.Buffer
import UrlParseNginx.Library.DotSegments
import UrlParseNginx.Library.DotSegmentLaws
import UrlParseNginx.Library.Ascii
import UrlParseNginx.Library.PercentCoding
import UrlParseNginx.Request
import UrlParseNginx.ParseUri
import UrlParseNginx.ComplexUri
import UrlParseNginx.OriginForm
import UrlParseNginx.ParseUriMeaning
import UrlParseNginx.PathMeaning
import UrlParseNginx.ComplexUriArms
import UrlParseNginx.ComplexUriMeaning
import UrlParseNginx.OriginFormMeaning
import UrlParseNginx.Acceptance
import UrlParseNginx.PathEscape
import UrlParseNginx.CanonicalPath
import UrlParseNginx.QueryFragment
import UrlParseNginx.MergeModes
import UrlParseNginx.PrefixReplacement
import UrlParseNginx.FastPath
import UrlParseNginx.ComplexUriInvariant
import UrlParseNginx.Bounds
import UrlParseNginx.Reference.NginxUrl
import UrlParseNginx.Reference.ComplexUriPort
import UrlParseNginx.Reference.PortEquivalence
import UrlParseNginx.Library.SegmentExtension
import UrlParseNginx.OutputShape
import UrlParseNginx.Termination
import UrlParseNginx.Sentinel
import UrlParseNginx.Extension
import UrlParseNginx.Simulation
import UrlParseNginx.RequestFlags
import UrlParseNginx.Library.MarkedCoding
import UrlParseNginx.Library.Words
import UrlParseNginx.StageTwoResult
import UrlParseNginx.ScanCost
import UrlParseNginx.Reference.EscapeUri
import UrlParseNginx.Reference.WrapperResult
import UrlParseNginx.Fuzz.Harness
import UrlParseNginx.Fuzz.Coverage
import UrlParseNginx.Library.SegmentEffects
import UrlParseNginx.FragmentEquivalence
import UrlParseNginx.ParserRange
import UrlParseNginx.Reference.InPlace
import UrlParseNginx.OutputRoom
