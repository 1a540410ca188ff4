import Rdbparser.Decode.Accepted
import Rdbparser.Decode.Burst
import Rdbparser.Decode.Inside
import Rdbparser.Decode.Module
import Rdbparser.Decode.Opcodes
import Rdbparser.Decode.Uninit
import Rdbparser.Encode.Back
import Rdbparser.Encode.File
import Rdbparser.Encode.Ints
import Rdbparser.Encode.Sizes
import Rdbparser.Encode.Tail
import Rdbparser.HexDump
import Rdbparser.Json.File
import Rdbparser.ListPack.Bounded
import Rdbparser.Main.List
import Rdbparser.Restore.Replay
import Rdbparser.Restore.Stdin
import Rdbparser.Stream.Owned
import Rdbparser.Stream.Stores
