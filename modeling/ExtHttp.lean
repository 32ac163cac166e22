import ExtHttp.Assoc
import ExtHttp.AuthorityKept
import ExtHttp.Bisection
import ExtHttp.BodyReads
import ExtHttp.BodyStream
import ExtHttp.BufferAccounting
import ExtHttp.BufferOutput
import ExtHttp.ChunkSize
import ExtHttp.ChunkedAgreement
import ExtHttp.ChunkedEncode
import ExtHttp.ChunkedFeeds
import ExtHttp.ChunkedLength
import ExtHttp.ChunkedRest
import ExtHttp.ClientAnswers
import ExtHttp.ClientEnqueue
import ExtHttp.ClientQueue
import ExtHttp.ClientRun
import ExtHttp.Cookie
import ExtHttp.CookieRoundtrip
import ExtHttp.CookieText
import ExtHttp.Cslashes
import ExtHttp.CurlResponse
import ExtHttp.DechunkBounds
import ExtHttp.DechunkLedger
import ExtHttp.DechunkSplit
import ExtHttp.DotSegments
import ExtHttp.EntityTags
import ExtHttp.FormBody
import ExtHttp.HeaderCalls
import ExtHttp.HeaderLine
import ExtHttp.HeaderNames
import ExtHttp.HeaderProgress
import ExtHttp.HeaderRoundtrip
import ExtHttp.HeaderSafety
import ExtHttp.HeaderSplit
import ExtHttp.HeaderText
import ExtHttp.HeaderUpdate
import ExtHttp.InfoRoundtrip
import ExtHttp.LengthFraming
import ExtHttp.Letters
import ExtHttp.LinkedChain
import ExtHttp.MessageBody
import ExtHttp.MessageChain
import ExtHttp.MessageClose
import ExtHttp.MessageFailure
import ExtHttp.MessageHead
import ExtHttp.MessageLength
import ExtHttp.MessageNull
import ExtHttp.MessageObjects
import ExtHttp.MessageRoundtrip
import ExtHttp.MessageTermination
import ExtHttp.MessageText
import ExtHttp.MessageWrite
import ExtHttp.Multipart
import ExtHttp.Negotiate
import ExtHttp.NegotiateHeader
import ExtHttp.NegotiateQuality
import ExtHttp.Operations
import ExtHttp.OutputChunks
import ExtHttp.Params
import ExtHttp.ParamsCursor
import ExtHttp.ParamsItems
import ExtHttp.ParamsJoin
import ExtHttp.ParamsQuotes
import ExtHttp.ParamsRoundtrip
import ExtHttp.ParamsSeparators
import ExtHttp.ParamsStrings
import ExtHttp.ParamsTokens
import ExtHttp.ParamsWrite
import ExtHttp.PathSanitize
import ExtHttp.PathSegments
import ExtHttp.PhpValue
import ExtHttp.Pieces
import ExtHttp.Pipelining
import ExtHttp.PortExact
import ExtHttp.QueryKept
import ExtHttp.QueryLeaves
import ExtHttp.QueryMerge
import ExtHttp.QueryPruned
import ExtHttp.QueryRoundtrip
import ExtHttp.QueryUpdate
import ExtHttp.Querystring
import ExtHttp.RangeFraming
import ExtHttp.RangeGrammar
import ExtHttp.RangeOption
import ExtHttp.RequestRanges
import ExtHttp.Response
import ExtHttp.ResponseAnswer
import ExtHttp.ResponseBody
import ExtHttp.ResponseCalls
import ExtHttp.ResponseHead
import ExtHttp.ResponseSent
import ExtHttp.ResponseVerdict
import ExtHttp.ResponseWire
import ExtHttp.Scan
import ExtHttp.SeekStream
import ExtHttp.Steps
import ExtHttp.StreamFeeding
import ExtHttp.StreamProtocol
import ExtHttp.StreamResponse
import ExtHttp.TransferFraming
import ExtHttp.UpdateLeaves
import ExtHttp.Url
import ExtHttp.UrlAuthority
import ExtHttp.UrlCuts
import ExtHttp.UrlEnds
import ExtHttp.UrlFlags
import ExtHttp.UrlGrammar
import ExtHttp.UrlLocal
import ExtHttp.UrlLooks
import ExtHttp.UrlMaxlen
import ExtHttp.UrlMod
import ExtHttp.UrlParts
import ExtHttp.UrlRead
import ExtHttp.UrlSafe
import ExtHttp.UrlSettled
import ExtHttp.UrlSlice
import ExtHttp.UrlStable
import ExtHttp.UrlStages
import ExtHttp.UrlStd
import ExtHttp.UrlTail
import ExtHttp.UrlTears
import ExtHttp.UrlText
import ExtHttp.UrlWords
import ExtHttp.Utf8
import ExtHttp.Utf8Encode
import ExtHttp.ValueLeaves
import ExtHttp.WordMatch
import ExtHttp.WrittenHeaders
