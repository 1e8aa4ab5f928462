import BlindSig.Kkw.Online
import BlindSig.Kkw.Protocol
import BlindSig.Kkw.Binding
import BlindSig.Kkw.Hiding
import BlindSig.Kkw.Codeword
import BlindSig.Kkw.FsExpand
import BlindSig.UserState
import BlindSig.Kkw.HashCalls
import BlindSig.Voleith.SignerFiles
import BlindSig.Voleith.Traced
import BlindSig.Voleith.Shake
import BlindSig.Binius.Prover
import BlindSig.Binius.SignerKeys
import BlindSig.Binius.SaltedMerkle
import BlindSig.SignerSession
