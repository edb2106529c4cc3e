import EuleDB.Audit.Chain
import EuleDB.Audit.Crash
import EuleDB.Audit.Numbers
import EuleDB.Audit.Reanchor
import EuleDB.Audit.Spelling
import EuleDB.Audit.Tamper
import EuleDB.Corpus.Documents
import EuleDB.Crypto.Authority
import EuleDB.Crypto.Blocks
import EuleDB.Crypto.Failures
import EuleDB.Crypto.Frame
import EuleDB.Crypto.Integrity
import EuleDB.Crypto.Keyfiles
import EuleDB.Crypto.KeyringRuns
import EuleDB.Crypto.Lengths
import EuleDB.Crypto.PartFailures
import EuleDB.Crypto.Platform
import EuleDB.Crypto.Refinement
import EuleDB.Crypto.RotatingStore
import EuleDB.Crypto.Rotation
import EuleDB.Crypto.Spans
import EuleDB.Crypto.Upload
import EuleDB.Crypto.Versions
import EuleDB.Embed.Plans
import EuleDB.Embed.Pooling
import EuleDB.Embed.Port
import EuleDB.Lib.AdvisoryLock
import EuleDB.Lib.BytePositions
import EuleDB.Lib.Cuts
import EuleDB.Lib.Effect
import EuleDB.Lib.Endian
import EuleDB.Lib.Escapes
import EuleDB.Lib.Interleave
import EuleDB.Lib.Keyed
import EuleDB.Lib.Memo
import EuleDB.Lib.Numerals
import EuleDB.Lib.Ranked
import EuleDB.Lib.Slice
import EuleDB.Lib.Truth
import EuleDB.Store.Announced
import EuleDB.Store.Atomicity
import EuleDB.Store.Auditing
import EuleDB.Store.Compression
import EuleDB.Store.Concurrency
import EuleDB.Store.Confinement
import EuleDB.Store.Correspondence
import EuleDB.Store.CrashWriter
import EuleDB.Store.Database
import EuleDB.Store.FullText
import EuleDB.Store.FusedOrder
import EuleDB.Store.Indexes
import EuleDB.Store.Isolation
import EuleDB.Store.Measurement
import EuleDB.Store.Paging
import EuleDB.Store.Permission
import EuleDB.Store.Ranking
import EuleDB.Store.ReaderRuns
import EuleDB.Store.Readers
import EuleDB.Store.Recording
import EuleDB.Store.Refusals
import EuleDB.Store.Searches
import EuleDB.Store.Semantic
import EuleDB.Store.Snapshots
import EuleDB.Store.TableRuns
import EuleDB.Store.Tables
import EuleDB.Store.Transparency
import EuleDB.Store.Validation
import EuleDB.Store.WriteConfinement
import EuleDB.Store.WriteRole
