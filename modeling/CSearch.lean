import CSearch.Basic.Delta
import CSearch.Basic.Fault
import CSearch.Basic.Growth
import CSearch.Basic.KMerge
import CSearch.Basic.Memory
import CSearch.Basic.Runs
import CSearch.Basic.Search
import CSearch.Basic.Simd
import CSearch.Basic.Stream
import CSearch.Basic.Turnstile
import CSearch.Basic.Utf16
import CSearch.Basic.Utf8
import CSearch.BufRing.Fifo
import CSearch.BufRing.Invariant
import CSearch.BufRing.Lapped
import CSearch.BufRing.Ring
import CSearch.BufRing.Solo
import CSearch.BufRing.Threads
import CSearch.ChunkC.Chunk
import CSearch.ChunkC.ChunkList
import CSearch.Gumbo.CharRef
import CSearch.Gumbo.Cursor
import CSearch.Gumbo.Iterator
import CSearch.Gumbo.Pages
import CSearch.Gumbo.StringBuffer
import CSearch.Gumbo.Tag
import CSearch.Gumbo.TagName
import CSearch.Gumbo.Utf8
import CSearch.Gumbo.Vector
import CSearch.Index.Block
import CSearch.Index.Pending
import CSearch.Index.Writer
import CSearch.Iw.Flush
import CSearch.Iw.Writer
import CSearch.StreamVByte.Decode
import CSearch.StreamVByte.Encode
import CSearch.StreamVByte.Format
import CSearch.StreamVByte.Plain
import CSearch.StreamVByte.Tables
import CSearch.Tool.Chunk
import CSearch.Tool.Document
import CSearch.Tool.Dsort
import CSearch.Tool.Ifile
import CSearch.Tool.IfileRead
import CSearch.Tool.KWay
import CSearch.Tool.Merge
import CSearch.Tool.Pipeline
import CSearch.Tool.Prime
import CSearch.Tool.Record
import CSearch.Tool.Reinsert
import CSearch.ToolC.Buff
import CSearch.ToolC.Chunk
import CSearch.ToolC.Crawl
import CSearch.ToolC.CrawlFetch
import CSearch.ToolC.CrawlParse
import CSearch.ToolC.Forward
import CSearch.ToolC.Ifile
import CSearch.ToolC.Tokenizer
