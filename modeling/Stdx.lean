import Stdx.Encoding.Ecdsa
import Stdx.BigNumber.Radix
import Stdx.PCurves.NonceSequence
import Stdx.Cipher.Aead
import Stdx.Encoding.PemLabels
import Stdx.Csv.Limits
import Stdx.Csv.Output
import Stdx.SmallCollections.Refinement
import Stdx.MaxMindDb.Lookup
import Stdx.MaxMindDb.Bounded
import Stdx.Cipher.AesCtr
import Stdx.Hashes.Blake2b
import Stdx.Hashes.Kmac
import Stdx.Hashes.Blake3Stream
import Stdx.Singleflight.Dedup
import Stdx.Postgresql.Transactions
import Stdx.Jwt.Verification
import Stdx.Hpke.Channel
import Stdx.Xxhash.Xxh3Streaming
import Stdx.PCurves.FastMulCorrect
import Stdx.MlDsa.Intermediate
import Stdx.MlKem.Narrowing
import Stdx.Rsa.Parser
import Stdx.Rsa.Pss
import Stdx.Semver.Precedence
import Stdx.Encoding.FixedArrays
import Stdx.Mac.Hkdf
import Stdx.Ascon.RoundTrip
import Stdx.Encoding.Pkcs8Grammar
import Stdx.Curve25519.Reduction
import Stdx.Postgresql.CopyStrict
import Stdx.Postgresql.StatementLeaks
import Stdx.Postgresql.DecodeAgreement
import Stdx.Postgresql.Parameters
import Stdx.Time.Calendar
import Stdx.Time.MailDates
import Stdx.MlDsa.Correctness
import Stdx.Argon2.Filling
