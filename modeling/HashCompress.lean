import HashCompress.Sha256Spec
import HashCompress.StoreLoop
import HashCompress.TracedLoop
import HashCompress.Sha256Kernel
import HashCompress.Sha256KernelCorrect
import HashCompress.KeyedHash
import HashCompress.ScratchHash
import HashCompress.ParsingHelpers
import HashCompress.OptionInsert
import HashCompress.XdpProgram
import HashCompress.PacketPreservation
import HashCompress.OnesComplement
import HashCompress.IpChecksum
import HashCompress.HashVerifier
import HashCompress.OptionScans
import HashCompress.OptionGrammar
import HashCompress.VerifierBounds
import HashCompress.MessageNetwork
import HashCompress.FrameHops
import HashCompress.NetworkRuns
import HashCompress.ReportFootprint
import HashCompress.PatchPorts
import HashCompress.VlanTags
import HashCompress.PacketStatistics
import HashCompress.StatsPolling
import HashCompress.BitList
import HashCompress.BitIO
import HashCompress.PrefixCode
import HashCompress.CodeTables
import HashCompress.TokenCodec
import HashCompress.CodecAgreement
import HashCompress.UniqueDecoding
import HashCompress.InputStream
import HashCompress.DictionaryFile
import HashCompress.WordText
import HashCompress.TokenLoop
import HashCompress.TallyMap
import HashCompress.KeyTrie
import HashCompress.Tokenizer
import HashCompress.PhraseMining
import HashCompress.MinedPhrases
import HashCompress.PhraseSelection
import HashCompress.WildcardCounts
import HashCompress.PhraseMarks
import HashCompress.DictionaryRoundTrip
import HashCompress.PhraseSegment
import HashCompress.Compressor
import HashCompress.LocalHeader
import HashCompress.SuccessfulRun
import HashCompress.RegularPhrases
import HashCompress.PhraseFree
import HashCompress.RoundTrip
import HashCompress.DictionaryGrowth
import HashCompress.CodeWidths
import HashCompress.CodeOrder
import HashCompress.CommandRuns
import HashCompress.PhraseStatistics
import HashCompress.CompressedFormat
import HashCompress.SmallTexts
import HashCompress.PhraseEntries
import HashCompress.CallSequences
import HashCompress.ShownPhrases
import HashCompress.WildcardWords
import HashCompress.DecompressRuns
import HashCompress.NearestNeighbours
import HashCompress.NearestLabel
